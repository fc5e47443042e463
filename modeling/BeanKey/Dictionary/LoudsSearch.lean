import BeanKey.Dictionary.Louds
import BeanKey.Library.LevelOrder
import BeanKey.Library.Descent

/-! Search in a tree kept as bits: the children of a node by their characters, and its
descendants. On the bits of a level order it follows the tree. -/
namespace BeanKey.Dictionary
open Packing LevelOrder
open BeanKey.Descent (offspring)

namespace Louds

def childRange (louds : Louds) (parent : Nat) : Nat × Nat := louds.childRanges.getD parent (0, 0)

def directChildren (louds : Louds) (parent : Nat) : List Nat :=
  List.range' (louds.childRange parent).1
    ((louds.childRange parent).2 - (louds.childRange parent).1)

def searchChild (louds : Louds) (parent : Nat) (characterId : UInt8) : Option Nat :=
  (louds.directChildren parent).find? fun index => louds.nodeIds[index]? = some characterId

def searchFrom (louds : Louds) (node : Nat) (characterIds : List UInt8) : Option Nat :=
  characterIds.foldlM louds.searchChild node

def search (louds : Louds) (characterIds : List UInt8) : Option Nat :=
  louds.searchFrom 1 characterIds

/-- The loop over the children of `descendants_from`; `visit` is the call on a child with the
count that is left. -/
def extendDescendants (visit : Nat → Nat → List Nat) (maxCount : Nat) :
    List Nat → List Nat → List Nat
  | [], output => output
  | child :: rest, output =>
    if maxCount < output.length then output
    else extendDescendants visit maxCount rest (output ++ visit child (maxCount - output.length))

/-- `descendants_from` without a bound on the depth; the recursion ends with the tree, which has
fewer levels than `fuel`. -/
def descendantsFrom (louds : Louds) : Nat → Nat → Nat → List Nat
  | 0, _, _ => []
  | fuel + 1, parent, maxCount =>
    extendDescendants (descendantsFrom louds fuel) maxCount (louds.directChildren parent)
      (louds.directChildren parent)

def descendants (louds : Louds) (characterIds : List UInt8) (maxCount : Nat) : List Nat :=
  match louds.search characterIds with
  | none => []
  | some root => louds.descendantsFrom louds.nodeCount root maxCount

end Louds

/-! ### The bits of a level order -/

variable {ν : Type*} {children : ν → List (UInt8 × ν)}

def unary (children : ν → List (UInt8 × ν)) (node : ν) : List Bool :=
  List.replicate (children node).length true ++ [false]

theorem zeroPositions_ones (position count : Nat) (rest : List Bool) :
    zeroPositions position (List.replicate count true ++ rest) =
      zeroPositions (position + count) rest := by
  induction count generalizing position with
  | zero => rfl
  | succ count ih =>
    rw [List.replicate_succ, List.cons_append, zeroPositions, ih]
    congr 1
    omega

theorem zeroPositions_append_ones (position : Nat) (bits : List Bool) (count : Nat) :
    zeroPositions position (bits ++ List.replicate count true) = zeroPositions position bits := by
  induction bits generalizing position with
  | nil =>
    have hones := zeroPositions_ones position count []
    rwa [List.append_nil] at hones
  | cons bit bits ih => cases bit <;> simp [zeroPositions, ih]

/-- The delimiter of a node stands behind the bits of all children so far. -/
theorem getElem?_zeroPositions_unary (nodes : List ν) (position : Nat) {index : Nat}
    (h : index < nodes.length) :
    (zeroPositions position (nodes.flatMap (unary children)))[index]? =
      some (position + childCount children nodes (index + 1) + index) := by
  induction nodes generalizing position index with
  | nil => exact absurd h (Nat.not_lt_zero _)
  | cons node nodes ih =>
    have hfirst : zeroPositions position ((node :: nodes).flatMap (unary children)) =
        (position + (children node).length) ::
          zeroPositions (position + (children node).length + 1)
            (nodes.flatMap (unary children)) := by
      rw [List.flatMap_cons, unary, List.append_assoc, zeroPositions_ones]
      rfl
    rw [hfirst]
    cases index with
    | zero => simp [childCount]
    | succ index =>
      rw [List.getElem?_cons_succ, ih _ (Nat.lt_of_succ_lt_succ h)]
      have hcount : childCount children (node :: nodes) (index + 1 + 1) =
          (children node).length + childCount children nodes (index + 1) := by
        rw [childCount, List.take_succ_cons, List.flatMap_cons, List.length_append]
        rfl
      rw [hcount]
      congr 1
      omega

/-- The bits read back, up to the ones that fill the last word. -/
theorem exists_padding (bits : List Bool) :
    ∃ count, loudsBits (encodeLouds bits) = bits ++ List.replicate count true := by
  have hpad : ∀ (count : Nat) (values : List Bool), values.length ≤ count * 64 →
      ∃ padding, (takeChunks 64 count values).flatMap
        (fun chunk => chunk ++ List.replicate (64 - chunk.length) true) =
          values ++ List.replicate padding true := by
    intro count
    induction count with
    | zero =>
      intro values hlength
      obtain rfl : values = [] := List.length_eq_zero_iff.mp (by omega)
      exact ⟨0, rfl⟩
    | succ count ih =>
      intro values hlength
      obtain ⟨padding, hrest⟩ := ih (values.drop 64) (by rw [List.length_drop]; omega)
      rw [takeChunks, List.flatMap_cons, hrest]
      by_cases hlong : 64 ≤ values.length
      · refine ⟨padding, ?_⟩
        rw [List.length_take, Nat.min_eq_left hlong, Nat.sub_self, List.replicate_zero,
          List.append_nil, ← List.append_assoc, List.take_append_drop]
      · refine ⟨64 - values.length + padding, ?_⟩
        rw [List.take_of_length_le (by omega), List.drop_of_length_le (by omega), List.nil_append,
          List.append_assoc, List.replicate_append_replicate]
  rw [loudsBits_encodeLouds]
  refine hpad _ bits ?_
  omega

/-! ### Search on an encoded tree -/

/-- The vectors of a tree whose level order is `nodes`: the node of place `index` has the number
`index + 1`. -/
structure Louds.Encodes (louds : Louds) (children : ν → List (UInt8 × ν)) (nodes : List ν) :
    Prop where
  order : nodes.tail = (nodes.flatMap children).map Prod.snd
  ids : louds.nodeIds = [0, 0] ++ (nodes.flatMap children).map Prod.fst
  ranges : ∀ index < nodes.length, louds.childRange (index + 1) =
    (childCount children nodes index + 2, childCount children nodes (index + 1) + 2)

theorem Louds.parse_encodes {nodes : List ν} {louds : Louds} (hne : nodes ≠ [])
    (horder : nodes.tail = (nodes.flatMap children).map Prod.snd)
    (hparse : Louds.parse (encodeLouds (true :: false :: nodes.flatMap (unary children)))
      ([0, 0] ++ (nodes.flatMap children).map Prod.fst) = .ok louds) :
    louds.Encodes children nodes := by
  have hlength : nodes.length = (nodes.flatMap children).length + 1 := by
    have htail := congrArg List.length horder
    rw [List.length_tail, List.length_map] at htail
    have := List.length_pos_of_ne_nil hne
    omega
  have hcount : ([0, 0] ++ (nodes.flatMap children).map Prod.fst).length = nodes.length + 1 := by
    rw [List.length_append, List.length_map, hlength]
    simp only [List.length_cons, List.length_nil]
    omega
  obtain ⟨padding, hbits⟩ := exists_padding (true :: false :: nodes.flatMap (unary children))
  have hzero : ∀ index ≤ nodes.length,
      ((zeroPositions 0 (loudsBits (encodeLouds (true :: false ::
        nodes.flatMap (unary children))))).take (nodes.length + 1)).getD index 0 =
        1 + childCount children nodes index + index := by
    intro index hindex
    rw [hbits, zeroPositions_append_ones, List.getD_eq_getElem?_getD,
      List.getElem?_take_of_lt (Nat.lt_succ_of_le hindex), zeroPositions, zeroPositions]
    cases index with
    | zero => simp [childCount]
    | succ index =>
      rw [List.getElem?_cons_succ, getElem?_zeroPositions_unary nodes _ hindex, Option.getD_some]
      omega
  have hrange : ∀ node ∈ List.range (nodes.length + 1), Louds.childRangeOf
      ((zeroPositions 0 (loudsBits (encodeLouds (true :: false ::
        nodes.flatMap (unary children))))).take (nodes.length + 1)) (nodes.length + 1) node =
      .ok (if node = 0 then (0, 0) else (childCount children nodes (node - 1) + 2,
        childCount children nodes node + 2)) := by
    intro node hnode
    have hle := List.mem_range.mp hnode
    by_cases hnodeZero : node = 0
    · rw [Louds.childRangeOf, if_pos hnodeZero, if_pos hnodeZero]
    · have hbefore := hzero (node - 1) (by omega)
      have hown := hzero node (by omega)
      have hfirst : childCount children nodes (node - 1) ≤ _ := childCount_le nodes (node - 1)
      have hlast : childCount children nodes node ≤ _ := childCount_le nodes node
      rw [Louds.childRangeOf, if_neg hnodeZero, if_neg hnodeZero]
      simp only [hbefore, hown]
      rw [if_neg (by omega), if_neg (by omega), Nat.min_eq_left (by omega),
        Nat.min_eq_left (by omega)]
      congr 2
      · omega
      · omega
  rw [Louds.parse] at hparse
  split at hparse
  · exact absurd hparse (by simp)
  · rw [hcount] at hparse
    simp only at hparse
    split at hparse
    · exact absurd hparse (by simp)
    · rw [Loop.mapM_ok hrange] at hparse
      obtain rfl := Except.ok.inj hparse
      refine ⟨horder, rfl, ?_⟩
      intro index hindex
      simp only [Louds.childRange, List.getD_eq_getElem?_getD, List.getElem?_map]
      rw [List.getElem?_range (by omega)]
      rfl

namespace Louds.Encodes
variable {louds : Louds} {nodes : List ν} (h : louds.Encodes children nodes)
include h

theorem child {index : Nat} {node : ν} (hnode : nodes[index]? = some node) {place : Nat}
    {pair : UInt8 × ν} (hplace : (children node)[place]? = some pair) :
    nodes[childCount children nodes index + place + 1]? = some pair.2 ∧
      louds.nodeIds[childCount children nodes index + place + 2]? = some pair.1 := by
  have hlt := (List.getElem?_eq_some_iff.mp hplace).1
  have hfound := (getElem?_flatMap_children hnode hlt).trans hplace
  constructor
  · rw [← List.getElem?_tail, h.order, List.getElem?_map, hfound]
    rfl
  · rw [h.ids, List.getElem?_append_right (by simp), List.getElem?_map]
    simp [hfound]

theorem directChildren_eq {index : Nat} {node : ν} (hnode : nodes[index]? = some node) :
    louds.directChildren (index + 1) =
      List.range' (childCount children nodes index + 2) (children node).length := by
  rw [directChildren, h.ranges index (List.getElem?_eq_some_iff.mp hnode).1,
    childCount_succ hnode]
  congr 1
  omega

end Louds.Encodes

theorem find?_range' {α : Type*} {p : Nat → Bool} {q : α → Bool} (values : List α) (start : Nat)
    (h : ∀ place value, values[place]? = some value → p (start + place) = q value) :
    (List.range' start values.length).find? p =
      (values.findIdx? q).map fun place => start + place := by
  induction values generalizing start with
  | nil => rfl
  | cons value values ih =>
    have hfirst : p start = q value := h 0 value rfl
    rw [List.length_cons, List.range'_succ, List.find?_cons, List.findIdx?_cons, hfirst]
    cases q value with
    | true => rfl
    | false =>
      have hrest := ih (start + 1) fun place other hplace => by
        rw [Nat.add_right_comm]
        exact h (place + 1) other hplace
      simp only [hrest, Bool.false_eq_true, if_false, Option.map_map]
      congr 1
      funext place
      simp only [Function.comp_apply]
      omega

namespace Louds.Encodes
variable {louds : Louds} {nodes : List ν} (h : louds.Encodes children nodes)
include h

/-- A child is found by its character, at its place in the level order. -/
theorem searchChild_eq {index : Nat} {node : ν} (hnode : nodes[index]? = some node)
    (character : UInt8) :
    louds.searchChild (index + 1) character =
      ((children node).findIdx? fun pair => pair.1 = character).map fun place =>
        childCount children nodes index + 2 + place := by
  rw [searchChild, h.directChildren_eq hnode]
  refine find?_range' (children node) _ ?_
  intro place pair hplace
  have hid := (h.child hnode hplace).2
  rw [Nat.add_right_comm, hid]
  simp

theorem searchChild_step {index : Nat} {node : ν} (hnode : nodes[index]? = some node)
    (character : UInt8) :
    match (children node).find? fun pair => pair.1 = character with
    | none => louds.searchChild (index + 1) character = none
    | some pair => ∃ next, louds.searchChild (index + 1) character = some (next + 1) ∧
        nodes[next]? = some pair.2 := by
  rw [h.searchChild_eq hnode]
  cases hfound : (children node).find? fun pair => pair.1 = character with
  | none =>
    have hnone : (children node).findIdx? (fun pair => pair.1 = character) = none := by
      rw [List.findIdx?_eq_none_iff]
      exact fun pair hin => by simpa using List.find?_eq_none.mp hfound pair hin
    simp only [hnone, Option.map_none]
  | some pair =>
    cases hindex : (children node).findIdx? fun pair => pair.1 = character with
    | none =>
      rw [List.findIdx?_eq_none_iff] at hindex
      have := hindex pair (List.mem_of_find?_eq_some hfound)
      rw [List.find?_some hfound] at this
      exact absurd this (by simp)
    | some place =>
      have hplace : (children node)[place]? = some pair := by
        rw [List.find?_eq_getElem?_findIdx] at hfound
        rw [List.findIdx?_eq_some_iff_findIdx_eq] at hindex
        rw [← hindex.2]
        exact hfound
      refine ⟨childCount children nodes index + place + 1, ?_, (h.child hnode hplace).1⟩
      simp only [Option.map_some]
      congr 1
      omega

end Louds.Encodes

/-! ### Descendants -/

/-- A place of the vectors stands for the node of this place in the level order. -/
def StandsFor (nodes : List ν) (place : Nat) (node : ν) : Prop :=
  ∃ index, place = index + 1 ∧ nodes[index]? = some node

theorem Louds.extendDescendants_related {R : Nat → ν → Prop} {visit : Nat → Nat → List Nat}
    {below : ν → List ν} {maxCount : Nat}
    (hvisit : ∀ place node count, R place node → (below node).length ≤ count →
      List.Forall₂ R (visit place count) (below node))
    {places output : List Nat} {nodes found : List ν} (hplaces : List.Forall₂ R places nodes)
    (houtput : List.Forall₂ R output found)
    (hcount : (found ++ nodes.flatMap below).length ≤ maxCount) :
    List.Forall₂ R (extendDescendants visit maxCount places output)
      (found ++ nodes.flatMap below) := by
  induction hplaces generalizing output found with
  | nil => simpa [extendDescendants] using houtput
  | @cons place node places nodes hplace _ ih =>
    have hlength := houtput.length_eq
    rw [List.flatMap_cons, List.length_append, List.length_append] at hcount
    rw [extendDescendants, if_neg (by omega), List.flatMap_cons, ← List.append_assoc]
    refine ih (List.rel_append houtput (hvisit place node _ hplace (by omega))) ?_
    rw [List.length_append, List.length_append]
    omega

namespace Louds.Encodes
variable {louds : Louds} {nodes : List ν} (h : louds.Encodes children nodes)
include h

theorem nodeCount_eq (hne : nodes ≠ []) : louds.nodeCount = nodes.length + 1 := by
  have horder := congrArg List.length h.order
  rw [List.length_tail, List.length_map] at horder
  have := List.length_pos_of_ne_nil hne
  rw [nodeCount, h.ids, List.length_append, List.length_map, ← horder]
  simp only [List.length_cons, List.length_nil]
  omega

theorem directChildren_related {place : Nat} {node : ν} (hplace : StandsFor nodes place node) :
    List.Forall₂ (StandsFor nodes) (louds.directChildren place) ((children node).map Prod.snd) := by
  obtain ⟨index, rfl, hnode⟩ := hplace
  rw [h.directChildren_eq hnode, List.forall₂_iff_get]
  refine ⟨by simp, fun offset hoffset hoffset' => ?_⟩
  rw [List.length_map] at hoffset'
  refine ⟨childCount children nodes index + offset + 1, ?_, ?_⟩
  · simp only [List.get_eq_getElem, List.getElem_range']
    omega
  · simpa using (h.child hnode (List.getElem?_eq_getElem hoffset')).1

/-- The descendants of a place stand for the nodes below its node, unless there are too many. -/
theorem descendantsFrom_related (fuel : Nat) {place maxCount : Nat} {node : ν}
    (hplace : StandsFor nodes place node)
    (hcount : (offspring children fuel node).length ≤ maxCount) :
    List.Forall₂ (StandsFor nodes) (louds.descendantsFrom fuel place maxCount)
      (offspring children fuel node) := by
  induction fuel generalizing place maxCount node with
  | zero => exact .nil
  | succ fuel ih =>
    have hchildren := h.directChildren_related hplace
    exact extendDescendants_related (fun _ _ _ hchild hfew => ih hchild hfew) hchildren hchildren
      hcount

end Louds.Encodes

end BeanKey.Dictionary
