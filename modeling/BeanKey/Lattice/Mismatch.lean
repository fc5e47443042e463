import BeanKey.Lattice.Bounds
import Mathlib.Tactic.NormNum

/-! A surface whose elements are not the graphemes of the joined text takes some
conversion outside the lattice or the reading. -/
namespace BeanKey.Lattice
open Input
variable {unicode : UnicodeTable} {tables : InputTableRegistry} {order : HashOrder}
  {composing : ComposingText} {lookups : Lookups unicode} {modifiers : ConversionModifiers}
  {context : ConversionContext} {nBest : Nat} {lattice : LatticeNodes}

/-! ### Fewer graphemes than elements -/

theorem buildLattice_none [Rounding]
    (hshort : (katakanaGraphemes unicode composing).length < composing.surface.length) :
    buildLattice lookups order tables modifiers composing = none := by
  by_contra hsome
  obtain ⟨lattice, hlattice⟩ := Option.ne_none_iff_exists'.mp hsome
  obtain ⟨surfaceNodes, hbuilt, -⟩ := Option.map_eq_some_iff.mp hlattice
  have hentries := Loop.isSome_of_mapM hbuilt (List.mem_range.mpr hshort)
  rw [surfaceEntries, List.getElem?_eq_none le_rfl] at hentries
  exact absurd hentries (by simp)

/-! ### Nodes that a path has reached -/

theorem foldl_insertPredecessor_ne_nil (hn : 0 < nBest) (values added : List Predecessor)
    (h : values ≠ [] ∨ added ≠ []) : added.foldl (insertPredecessor nBest) values ≠ [] := by
  induction added generalizing values with
  | nil => simpa using h
  | cons value added ih =>
    exact ih _ (.inl (TopK.insertBounded_ne_nil Predecessor.total hn values value))

/-- Every node that starts at the surface position has a predecessor. -/
def Filled (lattice : LatticeNodes) (state : SearchState) (start : Nat) : Prop :=
  ∀ nodes, lattice.surfaceNodes[start]? = some nodes →
    ∀ node ∈ nodes, state.predecessors node.slot ≠ []

theorem insertCompleted_keeps [Rounding] (hn : 0 < nBest)
    {constraint : Option Zenz.PrefixConstraint}
    {node : LatticeNode} {completed : List RegisteredPath}
    {predecessors : LatticeIndex × Nat → List Predecessor} {slot : LatticeIndex × Nat}
    (h : predecessors slot ≠ []) (next : LatticeNode) :
    insertCompleted lookups nBest constraint node completed predecessors next slot ≠ [] := by
  unfold insertCompleted
  by_cases hslot : slot = next.slot
  · subst hslot
    rw [Function.update_self]
    exact foldl_insertPredecessor_ne_nil hn _ _ (.inl h)
  · rwa [Function.update_of_ne hslot]

theorem foldl_insertCompleted_keeps [Rounding] (hn : 0 < nBest)
    {constraint : Option Zenz.PrefixConstraint}
    {node : LatticeNode} {completed : List RegisteredPath}
    {predecessors : LatticeIndex × Nat → List Predecessor} {slot : LatticeIndex × Nat}
    (h : predecessors slot ≠ []) (nextNodes : List LatticeNode) :
    nextNodes.foldl (insertCompleted lookups nBest constraint node completed) predecessors slot ≠
      [] := by
  induction nextNodes generalizing predecessors with
  | nil => exact h
  | cons next nextNodes ih => exact ih (insertCompleted_keeps hn h next)

theorem foldl_insertCompleted_fills [Rounding] (hn : 0 < nBest) {node : LatticeNode}
    {completed : List RegisteredPath} (hcompleted : completed ≠ [])
    {predecessors : LatticeIndex × Nat → List Predecessor} {nextNodes : List LatticeNode}
    {next : LatticeNode} (hnext : next ∈ nextNodes) :
    nextNodes.foldl (insertCompleted lookups nBest none node completed) predecessors next.slot ≠
      [] := by
  induction nextNodes generalizing predecessors with
  | nil => simp at hnext
  | cons first nextNodes ih =>
    obtain rfl | hin := List.mem_cons.mp hnext
    · refine foldl_insertCompleted_keeps hn ?_ nextNodes
      rw [insertCompleted, Function.update_self]
      have hall : completed.filter (allowsNext none next.entry) = completed := by
        simp [allowsNext]
      rw [hall]
      exact foldl_insertPredecessor_ne_nil hn _ _ (.inr (by simpa using hcompleted))
    · exact ih hin

theorem processNode_keeps [Rounding] (hn : 0 < nBest) {constraint : Option Zenz.PrefixConstraint}
    {map : DualIndexMap} {state next : SearchState} {node : LatticeNode}
    (h : processNode lookups context nBest map constraint composing lattice state node = some next)
    {slot : LatticeIndex × Nat} (hslot : state.predecessors slot ≠ []) :
    next.predecessors slot ≠ [] := by
  unfold processNode at h
  simp only at h
  split at h
  · obtain rfl : state = next := Option.some.inj h
    exact hslot
  · split at h
    · obtain rfl := Option.some.inj h
      exact hslot
    · obtain ⟨nextNodes, -, rfl⟩ := Option.map_eq_some_iff.mp h
      exact foldl_insertCompleted_keeps hn hslot nextNodes

theorem processIndex_keeps [Rounding] (hn : 0 < nBest) {constraint : Option Zenz.PrefixConstraint}
    {map : DualIndexMap} {state next : SearchState} {index : DualIndex}
    (h : processIndex lookups context nBest map constraint composing lattice state
      index = some next)
    {slot : LatticeIndex × Nat} (hslot : state.predecessors slot ≠ []) :
    next.predecessors slot ≠ [] := by
  obtain ⟨nodes, -, hrun⟩ := Option.bind_eq_some_iff.mp h
  exact Loop.foldlM_keeps (fun _ state => state.predecessors slot ≠ []) nodes hrun hslot
    fun _ _ _ _ _ _ hslot hstep => processNode_keeps hn hstep hslot

theorem processNode_fills [Rounding] (hn : 0 < nBest) {map : DualIndexMap}
    {state next : SearchState}
    {node : LatticeNode}
    (h : processNode lookups context nBest map none composing lattice state node = some next)
    (hreached : state.predecessors node.slot ≠ [])
    (hnot : ¬((map.dual node.range.endIndex).surface? = some composing.surface.length ∨
      (map.dual node.range.endIndex).input? = some composing.input.length)) :
    ∃ nextNodes, lattice.nodesAt (map.dual node.range.endIndex) = some nextNodes ∧
      ∀ after ∈ nextNodes, next.predecessors after.slot ≠ [] := by
  unfold processNode at h
  simp only [if_neg hreached, if_neg hnot] at h
  obtain ⟨nextNodes, hnext, rfl⟩ := Option.map_eq_some_iff.mp h
  refine ⟨nextNodes, hnext, fun after hafter => ?_⟩
  refine foldl_insertCompleted_fills hn ?_ hafter
  have hall : ((state.predecessors node.slot).map (completePath lookups context node)).filter
      (allowsPath none node.entry) =
        (state.predecessors node.slot).map (completePath lookups context node) := by
    simp [allowsPath]
  rw [hall]
  simpa using hreached

/-! ### From one surface position to the next -/

theorem nodesAt_surface {index : DualIndex} {start : Nat} (hstart : index.surface? = some start)
    {nodes : List LatticeNode} (h : lattice.nodesAt index = some nodes) :
    ∃ surfaceNodes, lattice.surfaceNodes[start]? = some surfaceNodes ∧
      ∀ node ∈ surfaceNodes, node ∈ nodes := by
  simp only [LatticeNodes.nodesAt, hstart, Option.bind_eq_some_iff, Option.map_eq_some_iff] at h
  obtain ⟨surfaceNodes, hsurface, inputNodes, -, rfl⟩ := h
  exact ⟨surfaceNodes, hsurface, fun node hin => List.mem_append_left _ hin⟩

/-- Every column has a node for the character itself. -/
theorem exists_characterNode [Rounding]
    (hbuild : buildLattice lookups order tables modifiers composing = some lattice)
    {start : Nat} {nodes : List LatticeNode} (hnodes : lattice.surfaceNodes[start]? = some nodes) :
    ∃ node ∈ nodes, node.range = .surface start (start + 1) := by
  rw [buildLattice_surface hbuild] at hnodes
  split at hnodes
  · obtain ⟨entries, hentries, rfl⟩ := Option.map_eq_some_iff.mp hnodes
    obtain ⟨grapheme, -, rfl⟩ := Option.map_eq_some_iff.mp hentries
    obtain ⟨character, hcharacter⟩ :=
      List.exists_mem_of_ne_nil _ (singleCharacterEntries_ne_nil grapheme)
    have hmem : (character, start + 1) ∈ (singleCharacterEntries grapheme).map
        fun entry => (entry, start + 1) := List.mem_map.mpr ⟨character, hcharacter, rfl⟩
    obtain ⟨position, hposition⟩ := List.mem_iff_getElem?.mp
      (List.mem_append_left _ (List.mem_append_right _ hmem))
    exact ⟨_, List.mem_map.mpr ⟨((character, start + 1), position),
      List.mk_mem_zipIdx_iff_getElem?.mpr hposition, rfl⟩, rfl⟩
  · exact absurd hnodes (by simp)

theorem processIndex_fills [Rounding]
    (hc : composing.surface = convertElements tables composing.input)
    (hn : 0 < nBest)
    (hbuild : buildLattice lookups order tables modifiers composing = some lattice)
    {state next : SearchState} {index : DualIndex}
    (h : processIndex lookups context nBest (DualIndexMap.new order composing tables) none composing
      lattice state index = some next)
    {start : Nat} (hstart : index.surface? = some start)
    (hlt : start + 1 < composing.surface.length) (hfilled : Filled lattice state start) :
    Filled lattice next (start + 1) := by
  obtain ⟨nodes, hnodes, hrun⟩ := Option.bind_eq_some_iff.mp h
  obtain ⟨surfaceNodes, hsurface, hsub⟩ := nodesAt_surface hstart hnodes
  obtain ⟨character, hcharacter, hrange⟩ := exists_characterNode hbuild hsurface
  have hnot : ¬(((DualIndexMap.new order composing tables).dual
        character.range.endIndex).surface? = some composing.surface.length ∨
      ((DualIndexMap.new order composing tables).dual character.range.endIndex).input? =
        some composing.input.length) := by
    rw [hrange, LatticeRange.endIndex, DualIndexMap.dual_surface]
    rintro (hend | hend)
    · have := Option.some.inj hend
      omega
    · have hmem := DualIndexMap.dual_surface_input hlt.le hend
      have := (mapWithin hc).last _ hmem rfl
      simp only at this
      omega
  have hkeeps := Loop.foldlM_keeps (fun done state =>
    state.predecessors character.slot ≠ [] ∧
      (character ∈ done → Filled lattice state (start + 1))) nodes hrun
    ⟨hfilled surfaceNodes hsurface character hcharacter, fun hin => absurd hin List.not_mem_nil⟩
    fun done node rest state next _ hP hstep => by
      refine ⟨processNode_keeps hn hstep hP.1, fun hin after hafter node' hnode' => ?_⟩
      obtain hdone | hnow := List.mem_append.mp hin
      · exact processNode_keeps hn hstep (hP.2 hdone after hafter node' hnode')
      · obtain rfl := List.mem_singleton.mp hnow
        obtain ⟨nextNodes, hnext, hfills⟩ := processNode_fills hn hstep hP.1 hnot
        have hdual : ((DualIndexMap.new order composing tables).dual
            character.range.endIndex).surface? = some (start + 1) := by
          rw [hrange, LatticeRange.endIndex, DualIndexMap.dual_surface]
        obtain ⟨column, hcolumn, hmem⟩ := nodesAt_surface hdual hnext
        obtain rfl : column = after := Option.some.inj (hcolumn.symm.trans hafter)
        exact hfills node' (hmem node' hnode')
  exact hkeeps.2 (hsub character hcharacter)

/-! ### More graphemes than elements -/

def pairEntry : DictionaryEntry :=
  { word := ['あ'], ruby := [], leftId := 0, rightId := 0, meaningId := 0, baseValue := 0 }

theorem pairEntry_kept : shouldRemove unicode pairEntry = false := by
  have hcount : (graphemes unicode pairEntry.word).length = 1 := rfl
  have hvalue : pairEntry.value = 0 := by simp [pairEntry, DictionaryEntry.value]
  simp only [shouldRemove, hcount, hvalue, dictionaryThreshold]
  norm_num

def Lookups.pairs (unicode : UnicodeTable) : Lookups unicode where
  matchesFromStart ruby maximumLength :=
    if 2 ≤ min maximumLength (graphemes unicode ruby).length then [⟨2, [pairEntry]⟩] else []
  matches_within := by
    intro ruby maximumLength found hfound
    split at hfound
    · next hle =>
      obtain rfl := List.mem_singleton.mp hfound
      exact ⟨by simp, hle⟩
    · exact absurd hfound List.not_mem_nil
  exactMatch := fun _ => []
  connectionCost := fun _ _ => 0
  learnedMatches := fun _ _ => []
  learnedExact := fun _ => []

/-- With a grapheme to spare, a pair starts at the last element and ends outside. -/
theorem exists_pairNode
    (hlong : composing.surface.length < (katakanaGraphemes unicode composing).length)
    (hbuild : buildLattice (Lookups.pairs unicode) order tables modifiers composing = some lattice)
    {start : Nat} (hstart : start + 1 = composing.surface.length) {nodes : List LatticeNode}
    (hnodes : lattice.surfaceNodes[start]? = some nodes) :
    ∃ node ∈ nodes, node.range = .surface start (start + 2) := by
  rw [buildLattice_surface hbuild, if_pos (by omega)] at hnodes
  obtain ⟨entries, hentries, rfl⟩ := Option.map_eq_some_iff.mp hnodes
  obtain ⟨grapheme, -, rfl⟩ := Option.map_eq_some_iff.mp hentries
  have hmatched : (pairEntry, start + 2) ∈
      ((Lookups.pairs unicode).matchesFromStart
        ((katakanaGraphemes unicode composing).drop start).flatten maximumDictionaryLength).flatMap
          fun found => (found.entries.filter fun entry => !shouldRemove unicode entry).map
            fun entry => (entry, start + found.surfaceEnd) := by
    have hlen : 2 ≤ min maximumDictionaryLength (graphemes unicode
        ((katakanaGraphemes unicode composing).drop start).flatten).length := by
      rw [graphemes_suffix, List.length_drop, maximumDictionaryLength]
      omega
    rw [Lookups.pairs]
    simp only [if_pos hlen]
    simp [pairEntry_kept]
  obtain ⟨position, hposition⟩ := List.mem_iff_getElem?.mp
    (List.mem_append_left _ (List.mem_append_left _ hmatched))
  exact ⟨_, List.mem_map.mpr ⟨((pairEntry, start + 2), position),
    List.mk_mem_zipIdx_iff_getElem?.mpr hposition, rfl⟩, rfl⟩

/-- The pair at the last element leads outside the lattice. -/
theorem processNode_outside [Rounding]
    (hc : composing.surface = convertElements tables composing.input)
    (hbuild : buildLattice lookups order tables modifiers composing = some lattice)
    {state : SearchState} {node : LatticeNode} (hreached : state.predecessors node.slot ≠ [])
    {start : Nat} (hstart : start + 1 = composing.surface.length)
    (hrange : node.range = .surface start (start + 2)) :
    processNode lookups context nBest (DualIndexMap.new order composing tables) none composing
      lattice state node = none := by
  have hsurface : ((DualIndexMap.new order composing tables).dual
      node.range.endIndex).surface? = some (start + 2) := by
    rw [hrange, LatticeRange.endIndex, DualIndexMap.dual_surface]
  have hnot : ¬(((DualIndexMap.new order composing tables).dual
        node.range.endIndex).surface? = some composing.surface.length ∨
      ((DualIndexMap.new order composing tables).dual node.range.endIndex).input? =
        some composing.input.length) := by
    rw [hsurface]
    rintro (hend | hend)
    · have := Option.some.inj hend
      omega
    · rw [hrange, LatticeRange.endIndex] at hend
      obtain ⟨hidentity, heq⟩ | hmem := DualIndexMap.dual_surface_input_or hend
      · have := (DualIndexMap.identity_spec hidentity).1
        omega
      · have := (mapWithin hc).surface_le _ hmem
        simp only at this
        omega
  have houtside : lattice.nodesAt ((DualIndexMap.new order composing tables).dual
      node.range.endIndex) = none := by
    have hnone : lattice.surfaceNodes[start + 2]? = none := by
      rw [buildLattice_surface hbuild, if_neg (by omega)]
    simp only [LatticeNodes.nodesAt, hsurface, hnone, Option.bind_none]
  unfold processNode
  simp only [if_neg hreached, if_neg hnot, houtside, Option.map_none]

theorem latticeResults_pairs_none (hc : composing.surface = convertElements tables composing.input)
    (hlong : composing.surface.length < (katakanaGraphemes unicode composing).length)
    (hsurface : composing.surface ≠ []) (hn : 0 < nBest) :
    latticeResults (Lookups.pairs unicode) context nBest order tables {} composing = none := by
  by_contra hsome
  obtain ⟨results, hresults⟩ := Option.ne_none_iff_exists'.mp hsome
  unfold latticeResults at hresults
  rw [if_neg (not_or.mpr ⟨hn.ne', hsurface⟩)] at hresults
  obtain ⟨lattice, hbuild, hrun⟩ := Option.bind_eq_some_iff.mp hresults
  obtain ⟨final, hrun, -⟩ := Option.map_eq_some_iff.mp hrun
  have hpos := List.length_pos_of_ne_nil hsurface
  obtain ⟨hvisited, -⟩ := DualIndexMap.indices_spec order hc
  have hkeeps := Loop.foldlM_keeps (fun done state =>
    (∀ start < composing.surface.length,
      start = 0 ∨ start - 1 ∈ done.filterMap DualIndex.surface? → Filled lattice state start) ∧
      composing.surface.length - 1 ∉ done.filterMap DualIndex.surface?) _ hrun ?_ ?_
  · exact hkeeps.2 (by rw [hvisited, List.mem_range]; omega)
  · refine ⟨fun start hlt hstart nodes hnodes node hnode => ?_, by simp⟩
    obtain rfl : start = 0 := by simpa using hstart
    rw [buildLattice_surface hbuild, if_pos hlt] at hnodes
    obtain ⟨entries, -, rfl⟩ := Option.map_eq_some_iff.mp hnodes
    obtain ⟨hslot, -⟩ := mem_placeNodes hnode
    have hslot' : node.slot = (.surface 0, node.slot.2) := Prod.ext hslot rfl
    rw [hslot']
    simp [startPredecessors]
  · intro done index rest state next hsplit hP hstep
    cases hindex : index.surface? with
    | none =>
      have hsame : (done ++ [index]).filterMap DualIndex.surface? =
          done.filterMap DualIndex.surface? := by
        simp [List.filterMap_append, hindex]
      rw [hsame]
      exact ⟨fun start hlt hstart nodes hnodes node hnode =>
        processIndex_keeps hn hstep (hP.1 start hlt hstart nodes hnodes node hnode), hP.2⟩
    | some here =>
      have hmore : (done ++ [index]).filterMap DualIndex.surface? =
          done.filterMap DualIndex.surface? ++ [here] := by
        simp [List.filterMap_append, hindex]
      have hdone : done.filterMap DualIndex.surface? = List.range here ∧
          here < composing.surface.length := by
        have hall := congrArg (List.filterMap DualIndex.surface?) hsplit
        rw [hvisited, ← List.singleton_append, ← List.append_assoc, List.filterMap_append, hmore,
          List.append_assoc] at hall
        exact DualIndexMap.range_eq_append_cons hall
      have hfilled : Filled lattice state here := by
        refine hP.1 here hdone.2 ?_
        rw [hdone.1, List.mem_range]
        omega
      rw [hmore]
      refine ⟨fun start hlt hstart => ?_, fun hin => ?_⟩
      · by_cases hnext : start = here + 1
        · subst hnext
          exact processIndex_fills hc hn hbuild hstep hindex hlt hfilled
        · have hearlier : start = 0 ∨ start - 1 ∈ done.filterMap DualIndex.surface? := by
            obtain hzero | hin := hstart
            · exact .inl hzero
            · obtain hin | hin := List.mem_append.mp hin
              · exact .inr hin
              · have := List.mem_singleton.mp hin
                exact .inl (by omega)
          exact fun nodes hnodes node hnode =>
            processIndex_keeps hn hstep (hP.1 start hlt hearlier nodes hnodes node hnode)
      · obtain hin | hin := List.mem_append.mp hin
        · exact hP.2 hin
        · -- the pair at the last element was processed, which fails
          have hlast : here + 1 = composing.surface.length := by
            have := List.mem_singleton.mp hin
            omega
          obtain ⟨nodes, hnodes, hcolumn⟩ := Option.bind_eq_some_iff.mp hstep
          obtain ⟨surfaceNodes, hcolumnNodes, hsub⟩ := nodesAt_surface hindex hnodes
          obtain ⟨pair, hpair, hrange⟩ := exists_pairNode hlong hbuild hlast hcolumnNodes
          have hfalse := Loop.foldlM_keeps (fun done state =>
            state.predecessors pair.slot ≠ [] ∧ pair ∉ done) nodes hcolumn
            ⟨hfilled surfaceNodes hcolumnNodes pair hpair, List.not_mem_nil⟩
            fun done node rest state next _ hP hstep => by
              refine ⟨processNode_keeps hn hstep hP.1, fun hmem => ?_⟩
              obtain hin | hnow := List.mem_append.mp hmem
              · exact hP.2 hin
              · obtain rfl := List.mem_singleton.mp hnow
                rw [processNode_outside hc hbuild hP.1 hlast hrange] at hstep
                exact absurd hstep (by simp)
          exact hfalse.2 (hsub pair hpair)

/-! ### Conversion inside its bounds -/

theorem exists_outside (hc : composing.surface = convertElements tables composing.input)
    (hcount : (katakanaGraphemes unicode composing).length ≠ composing.surface.length) :
    ∃ lookups : Lookups unicode,
      latticeResults lookups {} 1 .identity tables {} composing = none := by
  obtain hshort | hlong := lt_or_gt_of_ne hcount
  · have hsurface : composing.surface ≠ [] := List.ne_nil_of_length_pos (by omega)
    refine ⟨.empty unicode, ?_⟩
    rw [latticeResults, if_neg (not_or.mpr ⟨Nat.one_ne_zero, hsurface⟩)]
    simp only [buildLattice_none hshort, Option.bind_none]
  · refine ⟨.pairs unicode, latticeResults_pairs_none hc hlong ?_ Nat.one_pos⟩
    intro hnil
    rw [katakanaGraphemes, ComposingText.surfaceText, hnil] at hlong
    exact absurd hlong (by simp [toKatakana])

/-- Every conversion of a text that has not drifted stays inside the lattice and the
reading exactly when the joined surface has as many graphemes as the surface has elements,
which the katakana reading then has, too. -/
theorem conversion_inside_iff (unicode : UnicodeTable) (tables : InputTableRegistry)
    (composing : ComposingText)
    (hc : composing.surface = convertElements tables composing.input) :
    ((∀ (lookups : Lookups unicode) (order : HashOrder) (modifiers : ConversionModifiers)
        (context : ConversionContext) (nBest : Nat), 0 < nBest →
        latticeResults lookups context nBest order tables modifiers composing ≠ none) ↔
      (graphemes unicode composing.surfaceText).length = composing.surface.length) ∧
    ((katakanaGraphemes unicode composing).length = composing.surface.length ↔
      (graphemes unicode composing.surfaceText).length = composing.surface.length) := by
  rw [← katakanaGraphemes_length]
  refine ⟨⟨?_, ?_⟩, Iff.rfl⟩
  · intro hall
    by_contra hcount
    obtain ⟨lookups, hnone⟩ := exists_outside hc hcount
    exact hall lookups .identity {} {} 1 Nat.one_pos hnone
  · intro hcount lookups order modifiers context nBest _ hnone
    have htotal : ∃ results, latticeResults lookups context nBest order tables modifiers
        composing = some results := latticeResults_total hc hcount
    obtain ⟨results, hresults⟩ := htotal
    exact absurd (hnone.symm.trans hresults) (by simp)

def kanaText : ComposingText := ComposingText.new.insertStr .kana endingTables ['か'] .direct

def markedText : ComposingText :=
  kanaText.insertStr .kana endingTables [Char.ofNat 0x3099] .direct

theorem types_insertStr (unicode : UnicodeTable) (value : Text) (inputStyle : InputStyle) :
    ComposingText.Types unicode (.insertStr value inputStyle) := by
  intro element helement
  obtain ⟨_, -, rfl⟩ := List.mem_map.mp helement
  exact InputPiece.noConfusion

def pairText : ComposingText :=
  ComposingText.new.insertStr .kana endingTables ['か', 'な'] .direct

/-- The run keeps the surface what the input converts to, and nothing in it is joined. -/
theorem conversion_inside_pair : pairText.surface.length = 2 ∧
    ∀ (lookups : Lookups .kana) (order : HashOrder) (modifiers : ConversionModifiers)
      (context : ConversionContext) (nBest : Nat), 0 < nBest →
      latticeResults lookups context nBest order endingTables modifiers pairText ≠ none := by
  have hreached : ComposingText.Reached .kana endingTables (fun text edit =>
      ComposingText.Types .kana edit ∧ text.InsertsVisibly .kana edit) pairText :=
    .edit (.insertStr ['か', 'な'] .direct) .new
      ⟨types_insertStr .kana ['か', 'な'] .direct, fun _ h => h.2 rfl⟩
  have hwell := hreached.wellFormed fun _ _ hedit => ⟨hedit.1.insertsQuietly, hedit.2⟩
  exact ⟨by decide +kernel,
    (conversion_inside_iff .kana endingTables pairText hwell.coherent.surface).1.mpr
      (by decide +kernel)⟩

theorem markedText_reached : ComposingText.Reached .kana endingTables
    (fun _ edit => ComposingText.Types .kana edit) markedText :=
  .edit (.insertStr [Char.ofNat 0x3099] .direct)
    (.edit (.insertStr ['か'] .direct) .new (types_insertStr .kana _ _)) (types_insertStr .kana _ _)

theorem latticeResults_markedText (lookups : Lookups .kana) (order : HashOrder)
    (modifiers : ConversionModifiers) :
    latticeResults lookups {} 1 order endingTables modifiers markedText = none := by
  have hshort : (katakanaGraphemes .kana markedText).length < markedText.surface.length := by
    decide +kernel
  rw [latticeResults, if_neg (by decide +kernel)]
  simp only [buildLattice_none hshort, Option.bind_none]

/-- A sound mark typed after its kana is an element of its own, but no grapheme. -/
theorem conversion_outside_marked :
    ¬∀ (unicode : UnicodeTable) (tables : InputTableRegistry) (composing : ComposingText),
      ComposingText.Reached unicode tables (fun _ edit => ComposingText.Types unicode edit)
        composing →
      ∀ (lookups : Lookups unicode) (order : HashOrder) (modifiers : ConversionModifiers)
        (context : ConversionContext) (nBest : Nat), 0 < nBest →
        latticeResults lookups context nBest order tables modifiers composing ≠ none := by
  intro hall
  refine hall .kana endingTables markedText markedText_reached (.empty .kana) .identity {} {} 1
    Nat.one_pos (latticeResults_markedText _ _ _)

end BeanKey.Lattice
