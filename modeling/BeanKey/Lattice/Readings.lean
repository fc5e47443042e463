import BeanKey.Lattice.Columns

/-! What hash maps in different orders build: the indices at the ends of nodes, and columns whose
readings are permuted. -/
namespace BeanKey.Lattice
open Input

/-! ### Positions -/

section positions
variable {tables : InputTableRegistry} {composing : ComposingText}

/-- An input position has one surface position, also where the surface has drifted. -/
theorem inputToSurfaceMap_functional {input surface surface' : Nat}
    (h : (input, surface) ∈ composing.inputToSurfaceMap tables)
    (h' : (input, surface') ∈ composing.inputToSurfaceMap tables) : surface = surface' := by
  rw [ComposingText.inputToSurfaceMap] at h h'
  split at h
  · next hidentity =>
    rw [if_pos hidentity] at h'
    obtain ⟨index, -, heq⟩ := List.mem_map.mp h
    obtain ⟨index', -, heq'⟩ := List.mem_map.mp h'
    obtain ⟨rfl, rfl⟩ := Prod.mk.inj heq
    obtain ⟨rfl, rfl⟩ := Prod.mk.inj heq'
    rfl
  · next hidentity =>
    rw [if_neg hidentity] at h'
    obtain ⟨pair, hpair, heq⟩ := List.mem_map.mp h
    obtain ⟨pair', hpair', heq'⟩ := List.mem_map.mp h'
    obtain ⟨rfl, rfl⟩ := Prod.mk.inj heq
    obtain ⟨hinput, rfl⟩ := Prod.mk.inj heq'
    rcases pairwise_trichotomy (scan_invariant tables composing.input).sorted hpair hpair' with
      rfl | hlt | hgt
    · rfl
    · exact absurd hinput hlt.1.ne
    · exact absurd hinput hgt.1.ne'

namespace DualIndexMap

theorem identity_eq (order order' : HashOrder) :
    (new order composing tables).identity = (new order' composing tables).identity := rfl

theorem indices_eq (order order' : HashOrder) (inputCount surfaceCount : Nat) :
    (new order composing tables).indices inputCount surfaceCount =
      (new order' composing tables).indices inputCount surfaceCount := rfl

theorem starts_dual_input (order : HashOrder) (index : Nat) {start : LatticeIndex}
    (h : start ∈ ((new order composing tables).dual (.input index)).starts) :
    start = .input index ∨ ∃ surface, start = .surface surface ∧
      ((new order composing tables).identity = true ∧ surface = index ∨
        (new order composing tables).identity = false ∧
          (index, surface) ∈ composing.inputToSurfaceMap tables) := by
  rw [dual] at h
  split at h
  · next hidentity =>
    rcases List.mem_cons.mp h with rfl | hlast
    · exact .inr ⟨index, rfl, .inl ⟨hidentity, rfl⟩⟩
    · exact .inl (List.mem_singleton.mp hlast)
  · next hidentity =>
    split at h
    · next surface hlookup =>
      rcases List.mem_cons.mp h with rfl | hlast
      · exact .inr ⟨surface, rfl, .inr ⟨Bool.eq_false_iff.mpr hidentity, mem_of_lookup hlookup⟩⟩
      · exact .inl (List.mem_singleton.mp hlast)
    · exact .inl (List.mem_singleton.mp h)

theorem starts_dual_surface (order : HashOrder) (index : Nat) {start : LatticeIndex}
    (h : start ∈ ((new order composing tables).dual (.surface index)).starts) :
    start = .surface index ∨ ∃ input, start = .input input ∧
      ((new order composing tables).identity = true ∧ input = index ∨
        (new order composing tables).identity = false ∧
          (input, index) ∈ composing.inputToSurfaceMap tables) := by
  cases hidentity : (new order composing tables).identity with
  | true =>
    rw [dual, if_pos hidentity] at h
    rcases List.mem_cons.mp h with rfl | hlast
    · exact .inl rfl
    · exact .inr ⟨index, List.mem_singleton.mp hlast, .inl ⟨rfl, rfl⟩⟩
  | false =>
    cases hinput : ((new order composing tables).dual (.surface index)).input? with
    | none =>
      have hsurface := @dual_surface tables order composing index
      cases hdual : (new order composing tables).dual (.surface index) with
      | input other => simp [hdual, DualIndex.input?] at hinput
      | both other surface => simp [hdual, DualIndex.input?] at hinput
      | surface other =>
        rw [hdual] at h hsurface
        obtain rfl : other = index := Option.some.inj hsurface
        exact .inl (List.mem_singleton.mp h)
    | some input =>
      have hmem := (dual_surface_input_or hinput).resolve_left fun hid => by
        simp [hidentity] at hid
      have hsurface := @dual_surface tables order composing index
      cases hdual : (new order composing tables).dual (.surface index) with
      | input other => simp [hdual, DualIndex.surface?] at hsurface
      | surface other => simp [hdual, DualIndex.input?] at hinput
      | both other surface =>
        rw [hdual] at h hsurface hinput
        obtain rfl : surface = index := Option.some.inj hsurface
        obtain rfl : other = input := Option.some.inj hinput
        rcases List.mem_cons.mp h with rfl | hlast
        · exact .inl rfl
        · exact .inr ⟨other, List.mem_singleton.mp hlast, .inr ⟨rfl, hmem⟩⟩

/-- Two orders pair a surface position with the same input position, or with two that share it. -/
theorem dual_surface_or (order order' : HashOrder) (index : Nat) :
    (new order composing tables).dual (.surface index) =
        (new order' composing tables).dual (.surface index) ∨
      ∃ input input', input ≠ input' ∧ (input, index) ∈ composing.inputToSurfaceMap tables ∧
        (input', index) ∈ composing.inputToSurfaceMap tables ∧
        (new order composing tables).dual (.surface index) = .both input index ∧
        (new order' composing tables).dual (.surface index) = .both input' index := by
  have hlookup : ∀ order : HashOrder,
      ((new order composing tables).surfaceToInput.lookup index = none ↔
        ∀ input, (input, index) ∉ composing.inputToSurfaceMap tables) ∧
        ∀ input, (new order composing tables).surfaceToInput.lookup index = some input →
          (input, index) ∈ composing.inputToSurfaceMap tables := by
    intro order
    have hmem : ∀ input, (index, input) ∈ (new order composing tables).surfaceToInput ↔
        (input, index) ∈ composing.inputToSurfaceMap tables := by
      intro input
      refine List.mem_map.trans ⟨?_, fun h => ⟨_, (order.perm _ _).mem_iff.mpr h, rfl⟩⟩
      rintro ⟨⟨input', index'⟩, hin, heq⟩
      obtain ⟨rfl, rfl⟩ := Prod.mk.inj heq
      exact (order.perm _ _).mem_iff.mp hin
    refine ⟨?_, fun input h => (hmem input).mp (mem_of_lookup h)⟩
    rw [List.lookup_eq_none_iff]
    constructor
    · intro hnone input hin
      simpa using hnone _ ((hmem input).mpr hin)
    · rintro hnone ⟨index', input⟩ hin
      by_contra heq
      obtain rfl : index = index' := by simpa using heq
      exact hnone input ((hmem input).mp hin)
  by_cases hidentity : (new order composing tables).identity = true
  · left
    rw [dual, dual, if_pos hidentity, if_pos (identity_eq order order' ▸ hidentity)]
  · have hidentity' : ¬(new order' composing tables).identity = true :=
      identity_eq order order' ▸ hidentity
    rw [dual, dual, if_neg hidentity, if_neg hidentity']
    cases hfirst : (new order composing tables).surfaceToInput.lookup index with
    | none =>
      rw [(hlookup order').1.mpr ((hlookup order).1.mp hfirst)]
      exact .inl rfl
    | some input =>
      cases hsecond : (new order' composing tables).surfaceToInput.lookup index with
      | none =>
        exact absurd ((hlookup order).2 input hfirst) ((hlookup order').1.mp hsecond input)
      | some input' =>
        by_cases hsame : input = input'
        · exact .inl (by rw [hsame])
        · exact .inr ⟨input, input', hsame, (hlookup order).2 input hfirst,
            (hlookup order').2 input' hsecond, rfl, rfl⟩

theorem mem_indices (order : HashOrder) {index : DualIndex}
    (h : index ∈ (new order composing tables).indices composing.input.length
      composing.surface.length) {input surface : Nat} (hboth : index = .both input surface) :
    surface < composing.surface.length ∧
      ((new order composing tables).identity = true ∧ input = surface ∨
        (new order composing tables).identity = false ∧
          (input, surface) ∈ composing.inputToSurfaceMap tables) := by
  subst hboth
  by_cases hidentity : (new order composing tables).identity = true
  · rw [indices, if_pos hidentity] at h
    obtain ⟨value, hvalue, heq⟩ := List.mem_map.mp h
    obtain ⟨rfl, rfl⟩ := DualIndex.both.inj heq
    have := List.mem_range.mp hvalue
    exact ⟨by omega, .inl ⟨hidentity, rfl⟩⟩
  · have hpart : ∀ count, .both input surface ∈
        ((new order composing tables).indicesUpTo composing.surface.length count).1 →
          surface < composing.surface.length ∧
            (input, surface) ∈ composing.inputToSurfaceMap tables := by
      intro count
      induction count with
      | zero => simp [indicesUpTo]
      | succ count ih =>
        rw [indicesUpTo_succ, List.mem_append]
        rintro (hin | hin)
        · exact ih hin
        · rw [indicesAt] at hin
          split at hin
          · next found hlookup =>
            rcases List.mem_append.mp hin with hskipped | hhere
            · obtain ⟨value, -, heq⟩ := List.mem_map.mp hskipped
              exact absurd heq (by simp)
            · have heq := List.mem_singleton.mp hhere
              split at heq
              · next hlt =>
                obtain ⟨rfl, rfl⟩ := DualIndex.both.inj heq
                exact ⟨hlt.2, mem_of_lookup hlookup⟩
              · exact absurd heq (by simp)
          · exact absurd (List.mem_singleton.mp hin) (by simp)
    rw [indices, if_neg hidentity] at h
    rcases List.mem_append.mp h with hin | hin
    · obtain ⟨hlt, hmem⟩ := hpart _ hin
      exact ⟨hlt, .inr ⟨Bool.eq_false_iff.mpr hidentity, hmem⟩⟩
    · obtain ⟨value, -, heq⟩ := List.mem_map.mp hin
      exact absurd heq (by simp)

end DualIndexMap

end positions

/-! ### Readings -/

section readings
variable {unicode : UnicodeTable} (lookups : Lookups unicode) (tables : InputTableRegistry)
  (additionalEntries : List DictionaryEntry) (input : List InputElement)

/-- The entries for one reading that the input may have been mistyped from. -/
def prefixEntries [Rounding] (start : Nat) (found : TypoPrefix) : List (DictionaryEntry × Nat) :=
  let entries := lookups.exactMatch found.ruby ++
    (additionalEntries.filter fun entry => entry.ruby = found.ruby) ++
      lookups.learnedExact found.ruby
  ((entries.map fun entry => entry.adjusted (typoAdjustment unicode entry found.penalty)).filter
    fun entry => !shouldRemove unicode entry).map fun entry => (entry, start + found.consumed)

def prefixNodes [Rounding] (start : Nat) (found : TypoPrefix) : List LatticeNode :=
  (prefixEntries lookups additionalEntries start found).map fun (entry, last) =>
    ⟨(.input start, 0), entry, .input start last⟩

def readings (unicode : UnicodeTable) (tables : InputTableRegistry) (input : List InputElement)
    (start : Nat) : List TypoPrefix :=
  typoPrefixes unicode .identity (input.drop start) tables maximumDictionaryLength

theorem readings_perm (order : HashOrder) (start : Nat) :
    (readings unicode tables input start).Perm
      (typoPrefixes unicode order (input.drop start) tables maximumDictionaryLength) :=
  ((HashOrder.identity.perm _ _).trans (order.perm _ _).symm).map _

theorem placeNodes_unplaced (start : LatticeIndex) (range : Nat → LatticeRange)
    (entries : List (DictionaryEntry × Nat)) :
    (placeNodes start range entries).map LatticeNode.unplaced =
      entries.map fun (entry, last) => ⟨(start, 0), entry, range last⟩ := by
  rw [placeNodes, List.map_map]
  conv_rhs => rw [← List.zipIdx_map_fst 0 entries, List.map_map]
  rfl

theorem inputNodes_unplaced [Rounding] (order : HashOrder) (start : Nat) :
    (placeNodes (.input start) (.input start)
        (inputEntries lookups order tables additionalEntries input start)).map
          LatticeNode.unplaced =
      (typoPrefixes unicode order (input.drop start) tables maximumDictionaryLength).flatMap
        (prefixNodes lookups additionalEntries start) := by
  rw [placeNodes_unplaced]
  change List.map _ (List.flatMap (prefixEntries lookups additionalEntries start) _) = _
  rw [List.map_flatMap]
  rfl

end readings

section columns
variable {unicode : UnicodeTable} {lookups : Lookups unicode} {tables : InputTableRegistry}
  {modifiers : ConversionModifiers} {composing : ComposingText} {order : HashOrder}
  {lattice lattice' : LatticeNodes}

def readingsAt (unicode : UnicodeTable) (order : HashOrder) (tables : InputTableRegistry)
    (modifiers : ConversionModifiers) (composing : ComposingText) (index : DualIndex) :
    List TypoPrefix :=
  match index.input? with
  | some start =>
    if modifiers.needTypoCorrection then
      typoPrefixes unicode order (composing.input.drop start) tables maximumDictionaryLength
    else []
  | none => []

theorem readingsAt_perm (order : HashOrder) (index : DualIndex) :
    (readingsAt unicode .identity tables modifiers composing index).Perm
      (readingsAt unicode order tables modifiers composing index) := by
  rw [readingsAt, readingsAt]
  split
  · split
    · exact readings_perm tables composing.input order _
    · exact .nil
  · exact .nil

theorem nodesAt_blocks [Rounding]
    (hbuild : buildLattice lookups .identity tables modifiers composing = some lattice)
    (hbuild' : buildLattice lookups order tables modifiers composing = some lattice')
    (index : DualIndex) :
    ((lattice.nodesAt index).isSome = (lattice'.nodesAt index).isSome) ∧
      ∀ nodes nodes', lattice.nodesAt index = some nodes → lattice'.nodesAt index = some nodes' →
        ∃ fixed, nodes.map LatticeNode.unplaced = fixed ++
            (readingsAt unicode .identity tables modifiers composing index).flatMap
              (prefixNodes lookups modifiers.additionalEntries (index.input?.getD 0)) ∧
          nodes'.map LatticeNode.unplaced = fixed ++
            (readingsAt unicode order tables modifiers composing index).flatMap
              (prefixNodes lookups modifiers.additionalEntries (index.input?.getD 0)) := by
  have hplaced := buildLattice_placed hbuild
  have hplaced' := buildLattice_placed hbuild'
  refine ⟨by rw [hplaced.nodesAt_isSome, hplaced'.nodesAt_isSome], ?_⟩
  intro nodes nodes' hnodes hnodes'
  have hsurfaces : ∀ start : Nat, lattice.surfaceNodes[start]? = lattice'.surfaceNodes[start]? := by
    intro start
    rw [buildLattice_surface hbuild, buildLattice_surface hbuild']
  have hinputs : ∀ {order : HashOrder} {lattice : LatticeNodes},
      buildLattice lookups order tables modifiers composing = some lattice →
      ∀ (start : Nat) nodes, lattice.inputNodes[start]? = some nodes →
        nodes.map LatticeNode.unplaced =
          (if modifiers.needTypoCorrection then
            typoPrefixes unicode order (composing.input.drop start) tables maximumDictionaryLength
          else []).flatMap (prefixNodes lookups modifiers.additionalEntries start) := by
    intro order lattice hbuild start nodes hnodes
    rw [buildLattice_input hbuild] at hnodes
    split at hnodes
    · obtain rfl := Option.some.inj hnodes
      split
      · exact inputNodes_unplaced _ _ _ _ _ _
      · rfl
    · exact absurd hnodes (by simp)
  rw [LatticeNodes.nodesAt] at hnodes hnodes'
  obtain ⟨surface, hsurface, hnodes⟩ := Option.bind_eq_some_iff.mp hnodes
  obtain ⟨inputs, hinput, rfl⟩ := Option.map_eq_some_iff.mp hnodes
  obtain ⟨surface', hsurface', hnodes'⟩ := Option.bind_eq_some_iff.mp hnodes'
  obtain ⟨inputs', hinput', rfl⟩ := Option.map_eq_some_iff.mp hnodes'
  obtain rfl : surface = surface' := by
    refine Option.some.inj (hsurface.symm.trans (Eq.trans ?_ hsurface'))
    cases index.surface? with
    | none => rfl
    | some start => exact hsurfaces start
  refine ⟨surface.map LatticeNode.unplaced, ?_, ?_⟩
  all_goals rw [List.map_append, readingsAt]
  · cases hindex : index.input? with
    | none =>
      rw [hindex] at hinput
      obtain rfl : [] = inputs := Option.some.inj hinput
      rfl
    | some start =>
      rw [hindex] at hinput
      exact congrArg _ (hinputs hbuild start inputs hinput)
  · cases hindex : index.input? with
    | none =>
      rw [hindex] at hinput'
      obtain rfl : [] = inputs' := Option.some.inj hinput'
      rfl
    | some start =>
      rw [hindex] at hinput'
      exact congrArg _ (hinputs hbuild' start inputs' hinput')

end columns

end BeanKey.Lattice
