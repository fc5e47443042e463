import BeanKey.Text
import BeanKey.Library.Bytes
import BeanKey.Library.Loop

/-! Character identifiers, and trees kept as a level-order bit string (LOUDS). -/
namespace BeanKey.Dictionary
open Packing

inductive LoudsError where
  | invalidWordLength (length : Nat)
  | missingZeroDelimiters (needed found : Nat)
  | nodeTableTooLarge (length : Nat)
  | invalidTopology (node zeroPosition : Nat)
  deriving DecidableEq

/-- The graphemes of the identifier file, in its order. -/
structure CharacterIdMap where
  graphemes : List Grapheme
  length_le : graphemes.length ≤ 256

namespace CharacterIdMap

def parse (unicode : UnicodeTable) (content : Text) : Except LoudsError CharacterIdMap :=
  if h : (BeanKey.graphemes unicode content).length ≤ 256 then .ok ⟨_, h⟩
  else .error (.nodeTableTooLarge (BeanKey.graphemes unicode content).length)

def id (map : CharacterIdMap) (grapheme : Grapheme) : Option UInt8 :=
  (map.graphemes.zipIdx.reverse.find? fun (other, _) => other = grapheme).map fun (_, index) =>
    UInt8.ofNat index

def encode (unicode : UnicodeTable) (map : CharacterIdMap) (value : Text) : Option (List UInt8) :=
  (BeanKey.graphemes unicode value).mapM map.id

theorem id_injective {map : CharacterIdMap} {first second : Grapheme} {character : UInt8}
    (hfirst : map.id first = some character) (hsecond : map.id second = some character) :
    first = second := by
  have hplace : ∀ {grapheme : Grapheme}, map.id grapheme = some character →
      map.graphemes[character.toNat]? = some grapheme := by
    intro grapheme hid
    obtain ⟨pair, hfound, rfl⟩ := Option.map_eq_some_iff.mp hid
    have hin := List.mem_reverse.mp (List.mem_of_find?_eq_some hfound)
    have hget := List.mem_zipIdx_iff_getElem?.mp hin
    have hlt := (List.getElem?_eq_some_iff.mp hget).1
    have hle := map.length_le
    have hsame : pair.1 = grapheme := by simpa using List.find?_some hfound
    rw [UInt8.toNat_ofNat_of_lt' (by rw [UInt8.size]; omega), hget, hsame]
  exact Option.some.inj ((hplace hfirst).symm.trans (hplace hsecond))

theorem encode_injective {unicode : UnicodeTable} {map : CharacterIdMap} {first second : Text}
    {characters : List UInt8} (hfirst : map.encode unicode first = some characters)
    (hsecond : map.encode unicode second = some characters) : first = second := by
  have hgraphemes := Loop.mapM_injective (fun _ _ _ => id_injective) hfirst hsecond
  rw [← flatten_graphemes unicode first, hgraphemes, flatten_graphemes]

end CharacterIdMap

structure Louds where
  nodeIds : List UInt8
  childRanges : List (Nat × Nat)

/-- The bits of the words of a file, from the highest of the first one. -/
def loudsBits (bits : Bytes) : List Bool :=
  (chunksExact 8 bits).flatMap fun chunk => toBits 64 (fromLeBytes chunk)

def zeroPositions (position : Nat) : List Bool → List Nat
  | [] => []
  | true :: rest => zeroPositions (position + 1) rest
  | false :: rest => position :: zeroPositions (position + 1) rest

namespace Louds

/-- The children of a node, between the delimiters of the node before it and its own. -/
def childRangeOf (zeros : List Nat) (nodeCount node : Nat) : Except LoudsError (Nat × Nat) :=
  if node = 0 then .ok (0, 0)
  else
    let before := zeros.getD (node - 1) 0
    let own := zeros.getD node 0
    if before < node then .error (.invalidTopology node before)
    else if own < node then .error (.invalidTopology node own)
    else .ok (min (before - node + 2) nodeCount, min (own - node + 1) nodeCount)

def parse (bits : Bytes) (nodeIds : List UInt8) : Except LoudsError Louds :=
  if bits.length % 8 ≠ 0 then .error (.invalidWordLength bits.length)
  else
    let zeros := (zeroPositions 0 (loudsBits bits)).take nodeIds.length
    if zeros.length < nodeIds.length then
      .error (.missingZeroDelimiters nodeIds.length zeros.length)
    else
      ((List.range nodeIds.length).mapM (childRangeOf zeros nodeIds.length)).map fun childRanges =>
        { nodeIds, childRanges }

def nodeCount (louds : Louds) : Nat := louds.nodeIds.length

end Louds

/-- Words of 64 bits, the last filled up with ones. -/
def encodeLouds (bits : List Bool) : Bytes :=
  (chunks 64 bits).flatMap fun chunk =>
    toLeBytes 8 (fromBits (chunk ++ List.replicate (64 - chunk.length) true))

/-! ### An encoded tree parses -/

theorem zeroPositions_length (position : Nat) (bits : List Bool) :
    (zeroPositions position bits).length = bits.count false := by
  induction bits generalizing position with
  | nil => rfl
  | cons bit rest ih => cases bit <;> simp [zeroPositions, ih]

theorem le_of_getElem?_zeroPositions {position index found : Nat} {bits : List Bool}
    (h : (zeroPositions position bits)[index]? = some found) : position + index ≤ found := by
  induction bits generalizing position index with
  | nil => simp [zeroPositions] at h
  | cons bit rest ih =>
    cases bit with
    | true =>
      have : position + 1 + index ≤ found := ih h
      omega
    | false =>
      cases index with
      | zero =>
        obtain rfl : position = found := by simpa [zeroPositions] using h
        exact Nat.le_refl _
      | succ index =>
        have : position + 1 + index ≤ found := ih (by simpa [zeroPositions] using h)
        omega

theorem loudsBits_encodeLouds (bits : List Bool) :
    loudsBits (encodeLouds bits) =
      (chunks 64 bits).flatMap fun chunk => chunk ++ List.replicate (64 - chunk.length) true := by
  have hchunks : chunksExact 8 (encodeLouds bits) = (chunks 64 bits).map fun chunk =>
      toLeBytes 8 (fromBits (chunk ++ List.replicate (64 - chunk.length) true)) := by
    rw [encodeLouds, List.flatMap_def]
    refine chunksExact_flatten (by decide) ?_
    intro block hblock
    obtain ⟨chunk, -, rfl⟩ := List.mem_map.mp hblock
    exact toLeBytes_length _ _
  rw [loudsBits, hchunks, List.flatMap_map]
  refine List.flatMap_congr ?_
  intro chunk hchunk
  have hlength : (chunk ++ List.replicate (64 - chunk.length) true).length = 64 := by
    have := length_of_mem_takeChunks hchunk
    simp
    omega
  have hlt := fromBits_lt (chunk ++ List.replicate (64 - chunk.length) true)
  rw [hlength] at hlt
  rw [fromLeBytes_toLeBytes_of_lt (hlt.trans_eq (by decide))]
  have := toBits_fromBits (chunk ++ List.replicate (64 - chunk.length) true)
  rwa [hlength] at this

theorem count_loudsBits_encodeLouds (bits : List Bool) :
    (loudsBits (encodeLouds bits)).count false = bits.count false := by
  have hcount : ∀ parts : List (List Bool),
      (parts.flatMap fun chunk => chunk ++ List.replicate (64 - chunk.length) true).count false =
        parts.flatten.count false := by
    intro parts
    induction parts with
    | nil => rfl
    | cons head rest ih => simp [ih, List.count_replicate]
  rw [loudsBits_encodeLouds, hcount, chunks_flatten (by decide)]

theorem head_loudsBits_encodeLouds (rest : List Bool) :
    ∃ others, loudsBits (encodeLouds (true :: rest)) = true :: others := by
  rw [loudsBits_encodeLouds, chunks]
  have hcount : ((true :: rest).length + 64 - 1) / 64 = (rest.length) / 64 + 1 := by
    rw [List.length_cons]
    omega
  rw [hcount, takeChunks, List.flatMap_cons, List.take_succ_cons, List.cons_append,
    List.cons_append]
  exact ⟨_, rfl⟩

/-- A bit string that starts with a one and has a delimiter for every node is a tree. -/
theorem Louds.parse_encodeLouds {rest : List Bool} {nodeIds : List UInt8}
    (h : nodeIds.length ≤ rest.count false) :
    ∃ louds, Louds.parse (encodeLouds (true :: rest)) nodeIds = .ok louds ∧
      louds.nodeCount = nodeIds.length := by
  obtain ⟨others, hothers⟩ := head_loudsBits_encodeLouds rest
  have hzeros : (zeroPositions 0 (loudsBits (encodeLouds (true :: rest)))) =
      zeroPositions 1 others := by rw [hothers, zeroPositions]
  have hlength : nodeIds.length ≤ (zeroPositions 1 others).length := by
    rw [← hzeros, zeroPositions_length, count_loudsBits_encodeLouds]
    simpa using h
  have hword : (encodeLouds (true :: rest)).length % 8 = 0 := by
    rw [encodeLouds, List.flatMap_def, flatten_length_of_blocks 8 ?_, Nat.mul_mod_left]
    intro block hblock
    obtain ⟨chunk, -, rfl⟩ := List.mem_map.mp hblock
    exact toLeBytes_length _ _
  have hranges : ∀ node ∈ List.range nodeIds.length, ∃ range,
      childRangeOf ((zeroPositions 1 others).take nodeIds.length) nodeIds.length node =
        .ok range := by
    intro node hnode
    have hlate : ∀ index < nodeIds.length,
        index < ((zeroPositions 1 others).take nodeIds.length).getD index 0 := by
      intro index hindex
      rw [List.getD_eq_getElem?_getD, List.getElem?_take_of_lt hindex,
        List.getElem?_eq_getElem (hindex.trans_le hlength), Option.getD_some]
      have := le_of_getElem?_zeroPositions
        (List.getElem?_eq_getElem (hindex.trans_le hlength))
      omega
    have hlt := List.mem_range.mp hnode
    by_cases hzero : node = 0
    · exact ⟨(0, 0), by rw [childRangeOf, if_pos hzero]⟩
    · have hbefore := hlate (node - 1) (by omega)
      have hown := hlate node hlt
      rw [childRangeOf, if_neg hzero]
      simp only
      rw [if_neg (by omega), if_neg (by omega)]
      exact ⟨_, rfl⟩
  obtain ⟨ranges, hmap, -⟩ := Loop.exists_mapM_ok _ _ hranges
  refine ⟨⟨nodeIds, ranges⟩, ?_, rfl⟩
  have htake : ¬((zeroPositions 1 others).take nodeIds.length).length < nodeIds.length := by
    rw [List.length_take]
    omega
  rw [parse, if_neg (not_not.mpr hword), hzeros]
  simp only [if_neg htake, hmap]
  rfl

end BeanKey.Dictionary
