import BeanKey.Lattice.Position
import BeanKey.Lattice.Search
import BeanKey.Library.Loop
import BeanKey.Input.Run

/-! Conversion of a text that has not drifted stays inside the lattice and the reading
exactly when the joined surface has as many graphemes as the surface has elements. -/
namespace BeanKey.Lattice
open Input
variable {unicode : UnicodeTable} {tables : InputTableRegistry} {order : HashOrder}
  {composing : ComposingText} {lookups : Lookups unicode} {modifiers : ConversionModifiers}
  {context : ConversionContext} {nBest : Nat} {lattice : LatticeNodes}

/-! ### Where the nodes lie -/

theorem katakanaGraphemes_length :
    (katakanaGraphemes unicode composing).length =
      (graphemes unicode composing.surfaceText).length := by
  rw [katakanaGraphemes, graphemes_toKatakana, List.length_map]

theorem graphemes_suffix (start : Nat) :
    graphemes unicode ((katakanaGraphemes unicode composing).drop start).flatten =
      (katakanaGraphemes unicode composing).drop start :=
  graphemes_drop unicode _ start

theorem mem_placeNodes {start : LatticeIndex} {range : Nat → LatticeRange}
    {entries : List (DictionaryEntry × Nat)} {node : LatticeNode}
    (h : node ∈ placeNodes start range entries) :
    node.slot.1 = start ∧ ∃ last, node.range = range last ∧ (node.entry, last) ∈ entries := by
  obtain ⟨⟨⟨entry, last⟩, position⟩, hmem, rfl⟩ := List.mem_map.mp h
  exact ⟨rfl, last, rfl, List.fst_mem_of_mem_zipIdx hmem⟩

/-- Where the entries at a surface position come from, and where each ends. -/
theorem mem_surfaceEntries [Rounding] {additionalEntries : List DictionaryEntry}
    {surfaceCount start : Nat}
    {katakanaGraphemes : List Grapheme} {entries : List (DictionaryEntry × Nat)}
    (h : surfaceEntries lookups additionalEntries surfaceCount katakanaGraphemes start =
      some entries) {entry : DictionaryEntry} {last : Nat} (hmem : (entry, last) ∈ entries) :
    ∃ grapheme, katakanaGraphemes[start]? = some grapheme ∧
      ((∃ found ∈ lookups.matchesFromStart (katakanaGraphemes.drop start).flatten
          maximumDictionaryLength, entry ∈ found.entries ∧ shouldRemove unicode entry = false ∧
          last = start + found.surfaceEnd) ∨
        (entry ∈ singleCharacterEntries grapheme ∧ last = start + 1) ∨
        ((entry ∈ additionalEntries ∨ entry ∈ lookups.learnedMatches
            (katakanaGraphemes.drop start).flatten maximumDictionaryLength) ∧
          fitsReading unicode (katakanaGraphemes.drop start).flatten (surfaceCount - start) entry =
            true ∧
          last = start + (graphemes unicode entry.ruby).length)) := by
  obtain ⟨grapheme, hgrapheme, rfl⟩ := Option.map_eq_some_iff.mp h
  refine ⟨grapheme, hgrapheme, ?_⟩
  obtain hmem | hadded := List.mem_append.mp hmem
  · obtain hmatched | hcharacter := List.mem_append.mp hmem
    · obtain ⟨found, hfound, hentry⟩ := List.mem_flatMap.mp hmatched
      obtain ⟨kept, hkept, heq⟩ := List.mem_map.mp hentry
      obtain ⟨rfl, rfl⟩ := Prod.mk.inj heq
      obtain ⟨hin, hremove⟩ := List.mem_filter.mp hkept
      exact .inl ⟨found, hfound, hin, by simpa using hremove, rfl⟩
    · obtain ⟨kept, hkept, heq⟩ := List.mem_map.mp hcharacter
      obtain ⟨rfl, rfl⟩ := Prod.mk.inj heq
      exact .inr (.inl ⟨hkept, rfl⟩)
  · obtain ⟨kept, hkept, heq⟩ := List.mem_map.mp hadded
    obtain ⟨rfl, rfl⟩ := Prod.mk.inj heq
    obtain ⟨hin, hfits⟩ := List.mem_filter.mp hkept
    exact .inr (.inr ⟨List.mem_append.mp hin, hfits, rfl⟩)

theorem surfaceEntries_end [Rounding] {additionalEntries : List DictionaryEntry} {start : Nat}
    {entries : List (DictionaryEntry × Nat)}
    (hcount : (katakanaGraphemes unicode composing).length = composing.surface.length)
    (h : surfaceEntries lookups additionalEntries composing.surface.length
      (katakanaGraphemes unicode composing) start = some entries)
    {entry : DictionaryEntry} {last : Nat} (hmem : (entry, last) ∈ entries) :
    start < last ∧ last ≤ composing.surface.length := by
  obtain ⟨grapheme, hgrapheme, hcases⟩ := mem_surfaceEntries h hmem
  have hstart : start < composing.surface.length := by
    rw [← hcount]
    exact (List.getElem?_eq_some_iff.mp hgrapheme).1
  obtain ⟨found, hfound, -, -, hlast⟩ | ⟨-, hlast⟩ | ⟨-, hfits, hlast⟩ := hcases
  · have hwithin := lookups.matches_within _ _ found hfound
    rw [graphemes_suffix, List.length_drop, hcount] at hwithin
    omega
  · omega
  · simp only [fitsReading, Bool.not_eq_true', Bool.or_eq_false_iff, decide_eq_false_iff_not]
      at hfits
    omega

theorem inputEntries_end [Rounding] {additionalEntries : List DictionaryEntry} {start : Nat}
    {entry : DictionaryEntry} {last : Nat} (hstart : start < composing.input.length)
    (hmem : (entry, last) ∈
      inputEntries lookups order tables additionalEntries composing.input start) :
    start < last ∧ last ≤ composing.input.length := by
  obtain ⟨found, hfound, hentry⟩ := List.mem_flatMap.mp hmem
  obtain ⟨_, -, heq⟩ := List.mem_map.mp hentry
  have hconsumed := typoPrefixes_consumed unicode order _ tables _ hfound
  rw [List.length_drop] at hconsumed
  have := (Prod.mk.inj heq).2
  omega

theorem buildLattice_surface [Rounding] (h : buildLattice lookups order tables modifiers composing =
    some lattice) (start : Nat) :
    lattice.surfaceNodes[start]? = if start < composing.surface.length then
      (surfaceEntries lookups modifiers.additionalEntries composing.surface.length
        (katakanaGraphemes unicode composing) start).map
          (placeNodes (.surface start) (.surface start)) else none := by
  obtain ⟨surfaceNodes, hbuilt, rfl⟩ := Option.map_eq_some_iff.mp h
  rw [Loop.getElem?_of_mapM hbuilt start]
  by_cases hlt : start < composing.surface.length
  · rw [if_pos hlt, List.getElem?_range hlt]
    rfl
  · rw [if_neg hlt, List.getElem?_eq_none (by simpa using hlt)]
    rfl

theorem buildLattice_input [Rounding] (h : buildLattice lookups order tables modifiers composing =
    some lattice) (start : Nat) :
    lattice.inputNodes[start]? = if start < composing.input.length then
      some (if modifiers.needTypoCorrection then placeNodes (.input start) (.input start)
        (inputEntries lookups order tables modifiers.additionalEntries composing.input start)
        else []) else none := by
  obtain ⟨surfaceNodes, -, rfl⟩ := Option.map_eq_some_iff.mp h
  by_cases hlt : start < composing.input.length
  · rw [if_pos hlt]
    simp only [List.getElem?_map, List.getElem?_range hlt, Option.map_some]
  · rw [if_neg hlt]
    rw [List.getElem?_map, List.getElem?_eq_none (by simpa using hlt)]
    rfl

def NodeWithin (composing : ComposingText) (node : LatticeNode) : Prop :=
  ∃ first last, first < last ∧
    (node.slot.1 = .surface first ∧ node.range = .surface first last ∧
        last ≤ composing.surface.length ∨
      node.slot.1 = .input first ∧ node.range = .input first last ∧
        last ≤ composing.input.length)

structure LatticeWithin (composing : ComposingText) (lattice : LatticeNodes) : Prop where
  surface : ∀ start < composing.surface.length, ∃ nodes,
    lattice.surfaceNodes[start]? = some nodes ∧ ∀ node ∈ nodes, NodeWithin composing node
  input : ∀ start < composing.input.length, ∃ nodes,
    lattice.inputNodes[start]? = some nodes ∧ ∀ node ∈ nodes, NodeWithin composing node

theorem buildLattice_within [Rounding]
    (hcount : (katakanaGraphemes unicode composing).length = composing.surface.length) :
    ∃ lattice, buildLattice lookups order tables modifiers composing = some lattice ∧
      LatticeWithin composing lattice := by
  have hentries : ∀ start < composing.surface.length, ∃ entries,
      surfaceEntries lookups modifiers.additionalEntries composing.surface.length
        (katakanaGraphemes unicode composing) start = some entries := by
    intro start hlt
    have hgrapheme := List.getElem?_eq_getElem (hcount ▸ hlt)
    exact ⟨_, by rw [surfaceEntries, hgrapheme]; rfl⟩
  obtain ⟨surfaceNodes, hsurface⟩ := Loop.exists_mapM
    (fun start => (surfaceEntries lookups modifiers.additionalEntries composing.surface.length
      (katakanaGraphemes unicode composing) start).map
        (placeNodes (.surface start) (.surface start)))
    (List.range composing.surface.length) fun start hstart => by
      obtain ⟨entries, hsome⟩ := hentries start (List.mem_range.mp hstart)
      rw [hsome]
      rfl
  obtain ⟨lattice, hbuild⟩ : ∃ lattice,
      buildLattice lookups order tables modifiers composing = some lattice :=
    ⟨_, by rw [buildLattice, hsurface]; rfl⟩
  refine ⟨_, hbuild, ?_, ?_⟩
  · intro start hlt
    obtain ⟨entries, hsome⟩ := hentries start hlt
    refine ⟨_, by rw [buildLattice_surface hbuild, if_pos hlt, hsome]; rfl, ?_⟩
    intro node hnode
    obtain ⟨hslot, last, hrange, hentry⟩ := mem_placeNodes hnode
    obtain ⟨hfirst, hlast⟩ := surfaceEntries_end hcount hsome hentry
    exact ⟨start, last, hfirst, .inl ⟨hslot, hrange, hlast⟩⟩
  · intro start hlt
    refine ⟨_, by rw [buildLattice_input hbuild, if_pos hlt], ?_⟩
    intro node hnode
    split at hnode
    · obtain ⟨hslot, last, hrange, hentry⟩ := mem_placeNodes hnode
      obtain ⟨hfirst, hlast⟩ := inputEntries_end hlt hentry
      exact ⟨start, last, hfirst, .inr ⟨hslot, hrange, hlast⟩⟩
    · exact absurd hnode List.not_mem_nil

/-! ### The search stays inside -/

theorem nodesAt_within (h : LatticeWithin composing lattice) {index : DualIndex}
    (hsurface : ∀ start, index.surface? = some start → start < composing.surface.length)
    (hinput : ∀ start, index.input? = some start → start < composing.input.length) :
    ∃ nodes, lattice.nodesAt index = some nodes ∧ ∀ node ∈ nodes, NodeWithin composing node := by
  cases index with
  | input start =>
    obtain ⟨nodes, hnodes, hwithin⟩ := h.input start (hinput start rfl)
    exact ⟨nodes, by simp [LatticeNodes.nodesAt, DualIndex.surface?, DualIndex.input?, hnodes],
      hwithin⟩
  | surface start =>
    obtain ⟨nodes, hnodes, hwithin⟩ := h.surface start (hsurface start rfl)
    exact ⟨nodes, by simp [LatticeNodes.nodesAt, DualIndex.surface?, DualIndex.input?, hnodes],
      hwithin⟩
  | both input surface =>
    obtain ⟨inputNodes, hinputNodes, hinputWithin⟩ := h.input input (hinput input rfl)
    obtain ⟨surfaceNodes, hsurfaceNodes, hsurfaceWithin⟩ := h.surface surface (hsurface surface rfl)
    refine ⟨surfaceNodes ++ inputNodes, by simp [LatticeNodes.nodesAt, DualIndex.surface?,
      DualIndex.input?, hinputNodes, hsurfaceNodes], ?_⟩
    intro node hnode
    obtain hin | hin := List.mem_append.mp hnode
    · exact hsurfaceWithin node hin
    · exact hinputWithin node hin

theorem dual_end_within (hc : composing.surface = convertElements tables composing.input)
    {node : LatticeNode} (hnode : NodeWithin composing node)
    (hnot : ¬(((DualIndexMap.new order composing tables).dual node.range.endIndex).surface? =
        some composing.surface.length ∨
      ((DualIndexMap.new order composing tables).dual node.range.endIndex).input? =
        some composing.input.length)) :
    (∀ start, ((DualIndexMap.new order composing tables).dual node.range.endIndex).surface? =
        some start → start < composing.surface.length) ∧
      ∀ start, ((DualIndexMap.new order composing tables).dual node.range.endIndex).input? =
        some start → start < composing.input.length := by
  have hmap := mapWithin hc
  obtain ⟨hnotSurface, hnotInput⟩ := not_or.mp hnot
  obtain ⟨first, last, -, ⟨-, hrange, hlast⟩ | ⟨-, hrange, hlast⟩⟩ := hnode
  · rw [hrange] at hnotSurface hnotInput ⊢
    constructor
    · intro start hstart
      rw [LatticeRange.endIndex, DualIndexMap.dual_surface] at hstart hnotSurface
      obtain rfl : last = start := Option.some.inj hstart
      exact lt_of_le_of_ne hlast fun he => hnotSurface (by rw [he])
    · intro start hstart
      have hle := hmap.input_le _ (DualIndexMap.dual_surface_input hlast hstart)
      exact lt_of_le_of_ne hle fun he => hnotInput (by rw [hstart]; exact congrArg some he)
  · rw [hrange] at hnotSurface hnotInput ⊢
    constructor
    · intro start hstart
      have hle := hmap.surface_le _ (DualIndexMap.dual_input_surface hlast hstart)
      exact lt_of_le_of_ne hle fun he => hnotSurface (by rw [hstart]; exact congrArg some he)
    · intro start hstart
      rw [LatticeRange.endIndex, DualIndexMap.dual_input] at hstart hnotInput
      obtain rfl : last = start := Option.some.inj hstart
      exact lt_of_le_of_ne hlast fun he => hnotInput (by rw [he])

theorem processNode_total [Rounding]
    (hc : composing.surface = convertElements tables composing.input)
    (h : LatticeWithin composing lattice) {node : LatticeNode} (hnode : NodeWithin composing node)
    (state : SearchState) :
    ∃ next, processNode lookups context nBest (DualIndexMap.new order composing tables)
      modifiers.constraint composing lattice state node = some next := by
  unfold processNode
  by_cases hnil : state.predecessors node.slot = []
  · exact ⟨state, by simp only [hnil, if_true]⟩
  · simp only [if_neg hnil]
    by_cases hend : ((DualIndexMap.new order composing tables).dual node.range.endIndex).surface? =
        some composing.surface.length ∨
      ((DualIndexMap.new order composing tables).dual node.range.endIndex).input? =
        some composing.input.length
    · exact ⟨_, if_pos hend⟩
    · obtain ⟨hsurface, hinput⟩ := dual_end_within hc hnode hend
      obtain ⟨nodes, hnodes, -⟩ := nodesAt_within h hsurface hinput
      rw [if_neg hend, hnodes]
      exact ⟨_, rfl⟩

theorem mem_indices_within (hc : composing.surface = convertElements tables composing.input)
    {index : DualIndex} (hindex : index ∈ (DualIndexMap.new order composing tables).indices
      composing.input.length composing.surface.length) :
    (∀ start, index.surface? = some start → start < composing.surface.length) ∧
      ∀ start, index.input? = some start → start < composing.input.length := by
  obtain ⟨hsurfaces, hinputs⟩ := DualIndexMap.indices_spec order hc
  refine ⟨fun start hstart => ?_, hinputs index hindex⟩
  have hmem : start ∈ ((DualIndexMap.new order composing tables).indices composing.input.length
      composing.surface.length).filterMap DualIndex.surface? :=
    List.mem_filterMap.mpr ⟨index, hindex, hstart⟩
  rw [hsurfaces] at hmem
  exact List.mem_range.mp hmem

/-- Where the counts agree, the search never leaves the lattice or the reading. -/
theorem latticeResults_total [Rounding]
    (hc : composing.surface = convertElements tables composing.input)
    (hcount : (katakanaGraphemes unicode composing).length = composing.surface.length) :
    ∃ results, latticeResults lookups context nBest order tables modifiers composing =
      some results := by
  unfold latticeResults
  by_cases hnone : nBest = 0 ∨ composing.surface = []
  · exact ⟨[], if_pos hnone⟩
  · obtain ⟨lattice, hbuild, hwithin⟩ : ∃ lattice,
        buildLattice lookups order tables modifiers composing = some lattice ∧
          LatticeWithin composing lattice := buildLattice_within hcount
    rw [if_neg hnone]
    simp only [hbuild, Option.bind_some]
    obtain ⟨final, hfinal, -⟩ := Loop.foldlM_total
      (processIndex lookups context nBest (DualIndexMap.new order composing tables)
        modifiers.constraint composing lattice) (fun _ _ => True)
      ((DualIndexMap.new order composing tables).indices composing.input.length
        composing.surface.length) ⟨startPredecessors, []⟩ trivial
      fun done index rest state hsplit _ => by
        have hmem : index ∈ (DualIndexMap.new order composing tables).indices
            composing.input.length composing.surface.length := by simp [hsplit]
        obtain ⟨hsurface, hinput⟩ := mem_indices_within hc hmem
        obtain ⟨nodes, hnodes, hnodesWithin⟩ := nodesAt_within hwithin hsurface hinput
        obtain ⟨next, hnext, -⟩ := Loop.foldlM_total
          (processNode lookups context nBest (DualIndexMap.new order composing tables)
            modifiers.constraint composing lattice) (fun _ _ => True) nodes state trivial
          fun done node rest state hsplit _ => by
            obtain ⟨next, hnext⟩ := processNode_total hc hwithin
              (hnodesWithin node (hsplit ▸ by simp)) state
            exact ⟨next, hnext, trivial⟩
        exact ⟨next, by rw [processIndex, hnodes]; exact hnext, trivial⟩
    exact ⟨final.results, by rw [hfinal]; rfl⟩

end BeanKey.Lattice
