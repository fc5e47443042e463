import BeanKey.Library.Bytes

/-! Numbers in groups of seven bits, least significant first; every byte but the last is marked. -/
namespace Varint
open Packing

def encode (value : Nat) : Bytes :=
  if value < 128 then [UInt8.ofNat value]
  else UInt8.ofNat (value % 128 + 128) :: encode (value / 128)
termination_by value

theorem encode_last {value : Nat} (h : value < 128) : encode value = [UInt8.ofNat value] := by
  rw [encode, if_pos h]

theorem encode_marked {value : Nat} (h : 128 ≤ value) :
    encode value = UInt8.ofNat (value % 128 + 128) :: encode (value / 128) := by
  rw [encode, if_neg (Nat.not_lt.mpr h)]

theorem encode_length_le {value groups : Nat} (h : value < 128 ^ (groups + 1)) :
    (encode value).length ≤ groups + 1 := by
  induction groups generalizing value with
  | zero =>
    have hlast : value < 128 := by simpa using h
    simp [encode_last hlast]
  | succ groups ih =>
    by_cases hlast : value < 128
    · simp [encode_last hlast]
    · have hrest : value / 128 < 128 ^ (groups + 1) :=
        Nat.div_lt_of_lt_mul (by rwa [Nat.pow_succ'] at h)
      rw [encode_marked (Nat.not_lt.mp hlast), List.length_cons]
      exact Nat.succ_le_succ (ih hrest)

/-- A number that is cut off shows it: every byte that is left is marked. -/
theorem marked_of_cut {value : Nat} {part : Bytes} (hpart : part <+: encode value)
    (hcut : part ≠ encode value) : ∀ byte ∈ part, 128 ≤ byte.toNat := by
  induction value using encode.induct generalizing part with
  | case1 value hlast =>
    rw [encode_last hlast] at hpart hcut
    cases part with
    | nil => intro byte hin; cases hin
    | cons first part =>
      obtain ⟨rfl, hnil⟩ := List.cons_prefix_cons.mp hpart
      exact absurd (by rw [List.prefix_nil.mp hnil]) hcut
  | case2 value hmarked ih =>
    rw [encode_marked (Nat.not_lt.mp hmarked)] at hpart hcut
    cases part with
    | nil => intro byte hin; cases hin
    | cons first part =>
      obtain ⟨rfl, hrest⟩ := List.cons_prefix_cons.mp hpart
      have hne : part ≠ encode (value / 128) := fun heq => hcut (by rw [heq])
      intro byte hin
      cases hin with
      | head => rw [UInt8.toNat_ofNat']; omega
      | tail _ hin => exact ih hrest hne byte hin

/-! ### The groups on machine words -/

theorem toNat_low (value : UInt64) : (value &&& 0x7f).toUInt8.toNat = value.toNat % 128 := by
  have hmask : (value &&& 0x7f).toNat = value.toNat % 128 := by
    rw [UInt64.toNat_and]
    exact Nat.and_two_pow_sub_one_eq_mod value.toNat 7
  rw [UInt64.toNat_toUInt8, hmask]
  omega

theorem toNat_shift (value : UInt64) : (value >>> 7).toNat = value.toNat / 128 := by
  rw [UInt64.toNat_shiftRight]
  exact Nat.shiftRight_eq_div_pow value.toNat 7

theorem toNat_mark {byte : UInt8} (h : byte.toNat < 128) :
    (byte ||| 0x80).toNat = byte.toNat + 128 := by
  have hor := Nat.two_pow_add_eq_or_of_lt (i := 7) h 1
  rw [UInt8.toNat_or, Nat.or_comm]
  exact hor.symm.trans (Nat.add_comm _ _)

theorem toNat_unmark (byte : UInt8) : (byte &&& 0x7f).toNat = byte.toNat % 128 := by
  rw [UInt8.toNat_and]
  exact Nat.and_two_pow_sub_one_eq_mod byte.toNat 7

theorem mark_eq_zero_iff (byte : UInt8) : byte &&& 0x80 = 0 ↔ byte.toNat < 128 := by
  have hbits : ∀ value : Fin 256, value.val &&& 128 = 0 ↔ value.val < 128 := by decide +kernel
  rw [← UInt8.toNat_inj, UInt8.toNat_and]
  exact hbits ⟨byte.toNat, byte.toNat_lt⟩

theorem toNat_join {low group shift : Nat} {acc byte : UInt64} (hlow : acc.toNat = low)
    (hbelow : low < 2 ^ shift) (hgroup : byte.toNat = group) (hshift : shift < 64)
    (hfits : 2 ^ shift * group < 2 ^ 64) :
    (acc ||| byte <<< UInt64.ofNat shift).toNat = low + 2 ^ shift * group := by
  have hcount : (UInt64.ofNat shift).toNat % 64 = shift := by
    rw [UInt64.toNat_ofNat']
    omega
  have hmoved : (byte <<< UInt64.ofNat shift).toNat = 2 ^ shift * group := by
    rw [UInt64.toNat_shiftLeft, hcount, hgroup, Nat.shiftLeft_eq, Nat.mul_comm,
      Nat.mod_eq_of_lt hfits]
  rw [UInt64.toNat_or, hlow, hmoved, Nat.or_comm, ← Nat.two_pow_add_eq_or_of_lt hbelow,
    Nat.add_comm]

/-! ### The groups on 32-bit words -/

theorem toNat_low32 (value : UInt32) : (value &&& 0x7f).toUInt8.toNat = value.toNat % 128 := by
  have hmask : (value &&& 0x7f).toNat = value.toNat % 128 := by
    rw [UInt32.toNat_and]
    exact Nat.and_two_pow_sub_one_eq_mod value.toNat 7
  rw [UInt32.toNat_toUInt8, hmask]
  omega

theorem toNat_shift32 (value : UInt32) : (value >>> 7).toNat = value.toNat / 128 := by
  rw [UInt32.toNat_shiftRight]
  exact Nat.shiftRight_eq_div_pow value.toNat 7

theorem toNat_join32 {low group shift : Nat} {acc byte : UInt32} (hlow : acc.toNat = low)
    (hbelow : low < 2 ^ shift) (hgroup : byte.toNat = group) (hshift : shift < 32)
    (hfits : 2 ^ shift * group < 2 ^ 32) :
    (acc ||| byte <<< UInt32.ofNat shift).toNat = low + 2 ^ shift * group := by
  have hcount : (UInt32.ofNat shift).toNat % 32 = shift := by
    rw [UInt32.toNat_ofNat']
    omega
  have hmoved : (byte <<< UInt32.ofNat shift).toNat = 2 ^ shift * group := by
    rw [UInt32.toNat_shiftLeft, hcount, hgroup, Nat.shiftLeft_eq, Nat.mul_comm,
      Nat.mod_eq_of_lt hfits]
  rw [UInt32.toNat_or, hlow, hmoved, Nat.or_comm, ← Nat.two_pow_add_eq_or_of_lt hbelow,
    Nat.add_comm]

end Varint
