import Mathlib.Data.List.Induction
import Mathlib.Tactic.Ring

/-! Little-endian numbers, chunks of a list, and bit strings packed into 64-bit words. -/
namespace Packing

abbrev Bytes := List UInt8

/-- The number's `width` low bytes, least significant first. -/
def toLeBytes : Nat → Nat → Bytes
  | 0, _ => []
  | width + 1, value => UInt8.ofNat value :: toLeBytes width (value / 256)

def fromLeBytes : Bytes → Nat
  | [] => 0
  | byte :: rest => byte.toNat + 256 * fromLeBytes rest

@[simp] theorem toLeBytes_length (width value : Nat) : (toLeBytes width value).length = width := by
  induction width generalizing value with
  | zero => rfl
  | succ width ih => simp [toLeBytes, ih]

theorem fromLeBytes_toLeBytes (width value : Nat) :
    fromLeBytes (toLeBytes width value) = value % 256 ^ width := by
  induction width generalizing value with
  | zero => simp [toLeBytes, fromLeBytes, Nat.mod_one]
  | succ width ih =>
    rw [toLeBytes, fromLeBytes, ih, Nat.pow_succ', Nat.mod_mul]
    simp

theorem fromLeBytes_toLeBytes_of_lt {width value : Nat} (h : value < 256 ^ width) :
    fromLeBytes (toLeBytes width value) = value := by
  rw [fromLeBytes_toLeBytes, Nat.mod_eq_of_lt h]

/-! ### Reading at a cursor -/

/-- The cursor stands before `part`; behind it is `after`. -/
theorem take_of_drop_eq {α : Type*} {values part after : List α} {cursor width : Nat}
    (h : values.drop cursor = part ++ after) (hwidth : part.length = width) :
    (values.drop cursor).take width = part := by
  rw [h, List.take_left' hwidth]

theorem drop_past {α : Type*} {values part after : List α} {cursor width : Nat}
    (h : values.drop cursor = part ++ after) (hwidth : part.length = width) :
    values.drop (cursor + width) = after := by
  rw [← List.drop_drop, h, List.drop_left' hwidth]

theorem le_length_of_drop {α : Type*} {values part after : List α} {cursor width : Nat}
    (h : values.drop cursor = part ++ after) (hwidth : part.length = width) (hpos : 0 < width) :
    cursor + width ≤ values.length := by
  have hlength := congrArg List.length h
  rw [List.length_drop, List.length_append, hwidth] at hlength
  omega

/-- Blocks of one size are skipped by their count. -/
theorem drop_flatMap {α β : Type*} {size : Nat} {block : α → List β}
    (h : ∀ value, (block value).length = size) (values : List α) (count : Nat) :
    (values.flatMap block).drop (count * size) = (values.drop count).flatMap block := by
  induction count generalizing values with
  | zero => simp
  | succ count ih =>
    cases values with
    | nil => simp
    | cons head rest =>
      rw [List.flatMap_cons, Nat.succ_mul, Nat.add_comm, ← List.drop_drop,
        List.drop_left' (h head), ih, List.drop_succ_cons]

/-! ### Chunks -/

variable {α : Type*}

def takeChunks (size : Nat) : Nat → List α → List (List α)
  | 0, _ => []
  | count + 1, values => values.take size :: takeChunks size count (values.drop size)

def chunks (size : Nat) (values : List α) : List (List α) :=
  takeChunks size ((values.length + size - 1) / size) values

def chunksExact (size : Nat) (values : List α) : List (List α) :=
  takeChunks size (values.length / size) values

@[simp] theorem takeChunks_length (size count : Nat) (values : List α) :
    (takeChunks size count values).length = count := by
  induction count generalizing values with
  | zero => rfl
  | succ count ih => simp [takeChunks, ih]

theorem getElem?_takeChunks {size count index : Nat} {values : List α} (h : index < count) :
    (takeChunks size count values)[index]? = some ((values.drop (index * size)).take size) := by
  induction count generalizing index values with
  | zero => exact absurd h (Nat.not_lt_zero _)
  | succ count ih =>
    cases index with
    | zero => simp [takeChunks]
    | succ index =>
      rw [takeChunks, List.getElem?_cons_succ, ih (Nat.lt_of_succ_lt_succ h), List.drop_drop,
        Nat.succ_mul, Nat.add_comm]

theorem getElem?_of_chunk {size place index : Nat} {values chunk : List α} {value : α}
    (h : (chunks size values)[place]? = some chunk) (hvalue : chunk[index]? = some value) :
    index < size ∧ values[place * size + index]? = some value := by
  obtain ⟨hlt, -⟩ := List.getElem?_eq_some_iff.mp h
  rw [chunks, takeChunks_length] at hlt
  rw [chunks, getElem?_takeChunks hlt] at h
  obtain rfl := Option.some.inj h
  obtain ⟨hindex, -⟩ := List.getElem?_eq_some_iff.mp hvalue
  have hsize : index < size := hindex.trans_le (List.length_take_le _ _)
  rw [List.getElem?_take_of_lt hsize, List.getElem?_drop] at hvalue
  exact ⟨hsize, hvalue⟩

theorem takeChunks_flatten {size : Nat} {blocks : List (List α)}
    (h : ∀ block ∈ blocks, block.length = size) :
    takeChunks size blocks.length blocks.flatten = blocks := by
  induction blocks with
  | nil => rfl
  | cons head rest ih =>
    have hhead := h head List.mem_cons_self
    rw [List.length_cons, takeChunks, List.flatten_cons, List.take_left' hhead,
      List.drop_left' hhead, ih fun block hin => h block (List.mem_cons_of_mem _ hin)]

theorem flatten_length_of_blocks (size : Nat) {blocks : List (List α)}
    (h : ∀ block ∈ blocks, block.length = size) :
    blocks.flatten.length = blocks.length * size := by
  induction blocks with
  | nil => simp
  | cons head rest ih =>
    rw [List.flatten_cons, List.length_append, h head List.mem_cons_self,
      ih fun block hin => h block (List.mem_cons_of_mem _ hin), List.length_cons, Nat.succ_mul,
      Nat.add_comm]

theorem chunksExact_flatten {size : Nat} (hsize : 0 < size) {blocks : List (List α)}
    (h : ∀ block ∈ blocks, block.length = size) : chunksExact size blocks.flatten = blocks := by
  rw [chunksExact, flatten_length_of_blocks size h, Nat.mul_div_cancel _ hsize,
    takeChunks_flatten h]

theorem chunks_flatten {size : Nat} (hsize : 0 < size) (values : List α) :
    (chunks size values).flatten = values := by
  have hcover : values.length ≤ (values.length + size - 1) / size * size := by
    have := Nat.div_add_mod (values.length + size - 1) size
    have := Nat.mod_lt (values.length + size - 1) hsize
    rw [Nat.mul_comm]
    omega
  rw [chunks]
  generalize (values.length + size - 1) / size = count at hcover
  induction count generalizing values with
  | zero =>
    obtain rfl : values = [] := by simpa using hcover
    rfl
  | succ count ih =>
    rw [Nat.succ_mul] at hcover
    rw [takeChunks, List.flatten_cons, ih (values.drop size) (by rw [List.length_drop]; omega),
      List.take_append_drop]

theorem length_of_mem_takeChunks {size count : Nat} {values chunk : List α}
    (h : chunk ∈ takeChunks size count values) : chunk.length ≤ size := by
  obtain ⟨index, hindex⟩ := List.mem_iff_getElem?.mp h
  have hlt : index < count := by
    have := (List.getElem?_eq_some_iff.mp hindex).1
    rwa [takeChunks_length] at this
  rw [getElem?_takeChunks hlt] at hindex
  rw [← Option.some.inj hindex]
  exact List.length_take_le _ _

/-! ### Bits -/

/-- The number whose binary digits these are, most significant first. -/
def fromBits (bits : List Bool) : Nat :=
  bits.foldl (fun value bit => 2 * value + bit.toNat) 0

/-- The `width` low bits of a number, most significant first. -/
def toBits : Nat → Nat → List Bool
  | 0, _ => []
  | width + 1, value => toBits width (value / 2) ++ [decide (value % 2 = 1)]

theorem fromBits_append_singleton (bits : List Bool) (bit : Bool) :
    fromBits (bits ++ [bit]) = 2 * fromBits bits + bit.toNat := by
  simp [fromBits]

theorem toBits_fromBits (bits : List Bool) : toBits bits.length (fromBits bits) = bits := by
  induction bits using List.reverseRecOn with
  | nil => rfl
  | append_singleton bits bit ih =>
    rw [List.length_append, List.length_singleton, toBits, fromBits_append_singleton]
    have hhalf : (2 * fromBits bits + bit.toNat) / 2 = fromBits bits := by
      cases bit with
      | false => simp
      | true =>
        simp
        omega
    have hbit : decide ((2 * fromBits bits + bit.toNat) % 2 = 1) = bit := by
      cases bit <;> simp
    rw [hhalf, ih, hbit]

theorem fromBits_lt (bits : List Bool) : fromBits bits < 2 ^ bits.length := by
  induction bits using List.reverseRecOn with
  | nil => simp [fromBits]
  | append_singleton bits bit ih =>
    rw [List.length_append, List.length_singleton, fromBits_append_singleton, Nat.pow_succ]
    cases bit <;> simp <;> omega

end Packing
