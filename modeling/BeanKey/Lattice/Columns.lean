import BeanKey.Library.Stable
import BeanKey.Lattice.Candidate

/-! The search by columns. What it hands on depends on the entries and ranges of the nodes and on
their order in each column, not on the places they stand at. -/
namespace BeanKey.Lattice
open Input Zenz Stable

/-! ### Columns -/

def DualIndex.starts : DualIndex → List LatticeIndex
  | .input index => [.input index]
  | .surface index => [.surface index]
  | .both inputIndex surfaceIndex => [.surface surfaceIndex, .input inputIndex]

def LatticeIndex.isWithin (composing : ComposingText) : LatticeIndex → Bool
  | .input index => index < composing.input.length
  | .surface index => index < composing.surface.length

def LatticeNodes.column (lattice : LatticeNodes) : LatticeIndex → Option (List LatticeNode)
  | .input index => lattice.inputNodes[index]?
  | .surface index => lattice.surfaceNodes[index]?

def LatticeNode.Spans (node : LatticeNode) : Prop :=
  ∃ first last, first < last ∧
    (node.slot.1 = .surface first ∧ node.range = .surface first last ∨
      node.slot.1 = .input first ∧ node.range = .input first last)

/-- A column at each position of the text, and a slot of its own for each node. -/
structure LatticeNodes.Placed (lattice : LatticeNodes) (composing : ComposingText) : Prop where
  within : ∀ start, (lattice.column start).isSome = start.isWithin composing
  slots : ∀ start nodes, lattice.column start = some nodes → (nodes.map LatticeNode.slot).Nodup
  spans : ∀ start nodes, lattice.column start = some nodes →
    ∀ node ∈ nodes, node.slot.1 = start ∧ node.Spans

theorem LatticeNodes.has_iff {lattice : LatticeNodes} {node : LatticeNode} :
    lattice.Has node ↔ ∃ start nodes, lattice.column start = some nodes ∧ node ∈ nodes := by
  constructor
  · rintro (⟨nodes, hnodes, hnode⟩ | ⟨nodes, hnodes, hnode⟩)
    · obtain ⟨start, hstart⟩ := List.mem_iff_getElem?.mp hnodes
      exact ⟨.surface start, nodes, hstart, hnode⟩
    · obtain ⟨start, hstart⟩ := List.mem_iff_getElem?.mp hnodes
      exact ⟨.input start, nodes, hstart, hnode⟩
  · rintro ⟨start | start, nodes, hnodes, hnode⟩
    · exact .inr ⟨nodes, List.mem_of_getElem? hnodes, hnode⟩
    · exact .inl ⟨nodes, List.mem_of_getElem? hnodes, hnode⟩

theorem LatticeNodes.nodesAt_eq_starts (lattice : LatticeNodes) (index : DualIndex) :
    lattice.nodesAt index = (index.starts.mapM lattice.column).map List.flatten := by
  cases index with
  | input input =>
    cases hinput : lattice.inputNodes[input]? <;>
      simp [nodesAt, DualIndex.starts, DualIndex.surface?, DualIndex.input?, column, hinput]
  | surface surface =>
    cases hsurface : lattice.surfaceNodes[surface]? <;>
      simp [nodesAt, DualIndex.starts, DualIndex.surface?, DualIndex.input?, column, hsurface]
  | both input surface =>
    cases hinput : lattice.inputNodes[input]? <;>
      cases hsurface : lattice.surfaceNodes[surface]? <;>
        simp [nodesAt, DualIndex.starts, DualIndex.surface?, DualIndex.input?, column, hinput,
          hsurface]

namespace LatticeNodes.Placed
variable {lattice : LatticeNodes} {composing : ComposingText} (h : lattice.Placed composing)
include h

theorem mem_column {node : LatticeNode} (hnode : lattice.Has node) {nodes : List LatticeNode}
    (hnodes : lattice.column node.slot.1 = some nodes) : node ∈ nodes := by
  obtain ⟨start, nodes', hnodes', hmem⟩ := has_iff.mp hnode
  rw [(h.spans start nodes' hnodes' node hmem).1, hnodes'] at hnodes
  exact Option.some.inj hnodes ▸ hmem

theorem has_spans {node : LatticeNode} (hnode : lattice.Has node) : node.Spans := by
  obtain ⟨start, nodes, hnodes, hmem⟩ := has_iff.mp hnode
  exact (h.spans start nodes hnodes node hmem).2

theorem nodesAt_isSome (index : DualIndex) :
    (lattice.nodesAt index).isSome = index.starts.all fun start => start.isWithin composing := by
  rw [nodesAt_eq_starts, Option.isSome_map]
  simp only [← h.within]
  cases index with
  | input input => cases hinput : lattice.column (.input input) <;> simp [DualIndex.starts, hinput]
  | surface surface =>
    cases hsurface : lattice.column (.surface surface) <;> simp [DualIndex.starts, hsurface]
  | both input surface =>
    cases hinput : lattice.column (.input input) <;>
      cases hsurface : lattice.column (.surface surface) <;>
        simp [DualIndex.starts, hinput, hsurface]

theorem mem_nodesAt {index : DualIndex} {nodes : List LatticeNode}
    (hnodes : lattice.nodesAt index = some nodes) (node : LatticeNode) :
    node ∈ nodes ↔ lattice.Has node ∧ node.slot.1 ∈ index.starts := by
  rw [nodesAt_eq_starts] at hnodes
  obtain ⟨columns, hcolumns, rfl⟩ := Option.map_eq_some_iff.mp hnodes
  rw [List.mem_flatten]
  constructor
  · rintro ⟨column, hcolumn, hmem⟩
    obtain ⟨start, hstart, hsame⟩ := (Loop.mem_mapM hcolumns).mp hcolumn
    exact ⟨has_iff.mpr ⟨start, column, hsame, hmem⟩,
      (h.spans start column hsame node hmem).1 ▸ hstart⟩
  · rintro ⟨hhas, hstart⟩
    obtain ⟨column, hsame⟩ := Option.isSome_iff_exists.mp (Loop.isSome_of_mapM hcolumns hstart)
    exact ⟨column, (Loop.mem_mapM hcolumns).mpr ⟨_, hstart, hsame⟩, h.mem_column hhas hsame⟩

theorem nodesAt_nodup {index : DualIndex} {nodes : List LatticeNode}
    (hnodes : lattice.nodesAt index = some nodes) : (nodes.map LatticeNode.slot).Nodup := by
  have hcolumn : ∀ start column, lattice.column start = some column →
      (column.map LatticeNode.slot).Nodup ∧ ∀ slot ∈ column.map LatticeNode.slot,
        slot.1 = start := by
    intro start column hsame
    refine ⟨h.slots start column hsame, fun slot hslot => ?_⟩
    obtain ⟨node, hnode, rfl⟩ := List.mem_map.mp hslot
    exact (h.spans start column hsame node hnode).1
  rw [nodesAt_eq_starts] at hnodes
  obtain ⟨columns, hcolumns, rfl⟩ := Option.map_eq_some_iff.mp hnodes
  have hone : ∀ start, index.starts = [start] → (columns.flatten.map LatticeNode.slot).Nodup := by
    intro start hstarts
    rw [hstarts, Loop.mapM_eq_some] at hcolumns
    cases hcolumns with
    | cons hfirst hrest =>
      cases hrest
      simpa using (hcolumn _ _ hfirst).1
  cases index with
  | input input => exact hone _ rfl
  | surface surface => exact hone _ rfl
  | both input surface =>
    rw [DualIndex.starts, Loop.mapM_eq_some] at hcolumns
    cases hcolumns with
    | cons hfirst hrest =>
      cases hrest with
      | cons hsecond hrest =>
        cases hrest
        obtain ⟨hnodup, hstart⟩ := hcolumn _ _ hfirst
        obtain ⟨hnodup', hstart'⟩ := hcolumn _ _ hsecond
        rw [List.flatten_cons, List.flatten_cons, List.flatten_nil, List.append_nil,
          List.map_append]
        refine hnodup.append hnodup' fun slot hin hin' => ?_
        exact absurd ((hstart slot hin).symm.trans (hstart' slot hin')) (by simp)

end LatticeNodes.Placed

section built
variable {unicode : UnicodeTable} {tables : InputTableRegistry} {order : HashOrder}
  {composing : ComposingText} {lookups : Lookups unicode} {modifiers : ConversionModifiers}
  {lattice : LatticeNodes}

theorem surfaceEntries_after [Rounding] {additionalEntries : List DictionaryEntry}
    {surfaceCount start : Nat}
    {katakanaGraphemes : List Grapheme} {entries : List (DictionaryEntry × Nat)}
    (h : surfaceEntries lookups additionalEntries surfaceCount katakanaGraphemes start =
      some entries) {entry : DictionaryEntry} {last : Nat} (hmem : (entry, last) ∈ entries) :
    start < last := by
  obtain ⟨grapheme, -, hcases⟩ := mem_surfaceEntries h hmem
  rcases hcases with ⟨found, hfound, -, -, hlast⟩ | ⟨-, hlast⟩ | ⟨-, hfits, hlast⟩
  · have hwithin := lookups.matches_within _ _ found hfound
    omega
  · omega
  · simp only [fitsReading, Bool.not_eq_true', Bool.or_eq_false_iff, decide_eq_false_iff_not]
      at hfits
    omega

theorem buildLattice_placed [Rounding]
    (hbuild : buildLattice lookups order tables modifiers composing = some lattice) :
    lattice.Placed composing := by
  have hsurface : ∀ start nodes, lattice.column (.surface start) = some nodes →
      ∃ entries, surfaceEntries lookups modifiers.additionalEntries composing.surface.length
        (katakanaGraphemes unicode composing) start = some entries ∧
          nodes = placeNodes (.surface start) (.surface start) entries := by
    intro start nodes hnodes
    rw [LatticeNodes.column, buildLattice_surface hbuild] at hnodes
    split at hnodes
    · obtain ⟨entries, hentries, rfl⟩ := Option.map_eq_some_iff.mp hnodes
      exact ⟨entries, hentries, rfl⟩
    · exact absurd hnodes (by simp)
  have hinput : ∀ start nodes, lattice.column (.input start) = some nodes →
      start < composing.input.length ∧
        (nodes = [] ∨ nodes = placeNodes (.input start) (.input start)
        (inputEntries lookups order tables modifiers.additionalEntries composing.input start)) := by
    intro start nodes hnodes
    rw [LatticeNodes.column, buildLattice_input hbuild] at hnodes
    split at hnodes
    · next hlt =>
      refine ⟨hlt, ?_⟩
      obtain rfl := Option.some.inj hnodes
      split
      · exact .inr rfl
      · exact .inl rfl
    · exact absurd hnodes (by simp)
  refine ⟨?_, ?_, ?_⟩
  · rintro (start | start)
    · rw [LatticeNodes.column, buildLattice_input hbuild, LatticeIndex.isWithin]
      by_cases hlt : start < composing.input.length <;> simp [hlt]
    · rw [LatticeNodes.column, LatticeIndex.isWithin]
      obtain ⟨surfaceNodes, hbuilt, rfl⟩ := Option.map_eq_some_iff.mp hbuild
      have hlength := (Loop.mapM_eq_some.mp hbuilt).length_eq
      rw [List.length_range] at hlength
      by_cases hlt : start < composing.surface.length
      · simp [hlt, List.getElem?_eq_getElem (hlength ▸ hlt)]
      · simp [hlt, List.getElem?_eq_none (hlength ▸ not_lt.mp hlt)]
  · rintro (start | start) nodes hnodes
    · rcases (hinput start nodes hnodes).2 with rfl | rfl
      · exact List.nodup_nil
      · exact placeNodes_slots _ _ _
    · obtain ⟨entries, -, rfl⟩ := hsurface start nodes hnodes
      exact placeNodes_slots _ _ _
  · rintro (start | start) nodes hnodes node hnode
    · obtain ⟨hlt, rfl | rfl⟩ := hinput start nodes hnodes
      · exact absurd hnode List.not_mem_nil
      · obtain ⟨hslot, last, hrange, hentry⟩ := mem_placeNodes hnode
        exact ⟨hslot, start, last, (inputEntries_end hlt hentry).1, .inr ⟨hslot, hrange⟩⟩
    · obtain ⟨entries, hentries, rfl⟩ := hsurface start nodes hnodes
      obtain ⟨hslot, last, hrange, hentry⟩ := mem_placeNodes hnode
      exact ⟨hslot, start, last, surfaceEntries_after hentries hentry, .inl ⟨hslot, hrange⟩⟩

end built

/-! ### What a node hands on -/

section handed
variable [Rounding] {unicode : UnicodeTable} (lookups : Lookups unicode)
  (context : ConversionContext) (constraint : Option PrefixConstraint) (composing : ComposingText)

def completedBy (node : LatticeNode) (leads : List Predecessor) : List RegisteredPath :=
  (leads.map (completePath lookups context node)).filter (allowsPath constraint node.entry)

abbrev EndsText (next : DualIndex) : Prop :=
  next.surface? = some composing.surface.length ∨ next.input? = some composing.input.length

/-- What `node`, where `next` is the index at its end, hands to the node `after` it. -/
def handedTo (next : DualIndex) (node : LatticeNode) (leads : List Predecessor)
    (after : LatticeNode) : List Predecessor :=
  if EndsText composing next ∨ after.slot.1 ∉ next.starts then []
  else ((completedBy lookups context constraint node leads).filter
    (allowsNext constraint after.entry)).map (extendTo lookups node after)

def endedBy (next : DualIndex) (node : LatticeNode) (leads : List Predecessor) :
    List RegisteredPath :=
  if EndsText composing next then
    (completedBy lookups context constraint node leads).filter (allowsResult constraint node.entry)
  else []

/-- The search does not leave the lattice at the node. -/
abbrev Stays (next : DualIndex) (leads : List Predecessor) : Prop :=
  leads = [] ∨ EndsText composing next ∨ next.starts.all (fun start => start.isWithin composing)

end handed

section process
variable [Rounding] {unicode : UnicodeTable} {lookups : Lookups unicode}
  {context : ConversionContext} {nBest : Nat} {constraint : Option PrefixConstraint}
  {composing : ComposingText}
  {map : DualIndexMap} {lattice : LatticeNodes} {state final : SearchState} {node : LatticeNode}

theorem completedBy_nil : completedBy lookups context constraint node [] = [] := rfl

theorem handedTo_nil (next : DualIndex) (after : LatticeNode) :
    handedTo lookups context constraint composing next node [] after = [] := by
  rw [handedTo, completedBy_nil]
  split <;> rfl

theorem endedBy_nil (next : DualIndex) :
    endedBy lookups context constraint composing next node [] = [] := by
  rw [endedBy, completedBy_nil]
  split <;> rfl

theorem processNode_isSome (hplaced : lattice.Placed composing) :
    (processNode lookups context nBest map constraint composing lattice state node).isSome ↔
      Stays composing (map.dual node.range.endIndex) (state.predecessors node.slot) := by
  rw [processNode, Stays]
  dsimp only
  split
  · next hnil => simp [hnil]
  · next hnil =>
    split
    · next hend => simp [hend]
    · next hend =>
      rw [Option.isSome_map, hplaced.nodesAt_isSome]
      simp only [hnil, false_or]
      exact (or_iff_right hend).symm

theorem processNode_spec (hplaced : lattice.Placed composing)
    (h : processNode lookups context nBest map constraint composing lattice state node =
      some final) :
    (∀ after, lattice.Has after → final.predecessors after.slot =
      (handedTo lookups context constraint composing (map.dual node.range.endIndex) node
        (state.predecessors node.slot) after).foldl (insertPredecessor nBest)
          (state.predecessors after.slot)) ∧
      final.results = state.results ++ endedBy lookups context constraint composing
        (map.dual node.range.endIndex) node (state.predecessors node.slot) := by
  rw [processNode] at h
  dsimp only at h
  split at h
  · next hnil =>
    obtain rfl := Option.some.inj h
    rw [hnil, endedBy_nil, List.append_nil]
    refine ⟨fun after _ => ?_, rfl⟩
    rw [handedTo_nil]
    rfl
  · split at h
    · next hend =>
      obtain rfl := Option.some.inj h
      refine ⟨fun after _ => ?_, ?_⟩
      · rw [handedTo, if_pos (.inl hend)]
        rfl
      · rw [endedBy, if_pos hend]
        rfl
    · next hend =>
      obtain ⟨nodes, hnodes, rfl⟩ := Option.map_eq_some_iff.mp h
      refine ⟨fun after hafter => ?_, ?_⟩
      · by_cases hstart : after.slot.1 ∈ (map.dual node.range.endIndex).starts
        · have hin := (hplaced.mem_nodesAt hnodes after).mpr ⟨hafter, hstart⟩
          rw [handedTo, if_neg (not_or.mpr ⟨hend, not_not.mpr hstart⟩)]
          exact foldl_insertCompleted_apply (hplaced.nodesAt_nodup hnodes) _ hin
        · have hout : after.slot ∉ nodes.map LatticeNode.slot := by
            rintro hin
            obtain ⟨same, hsame, hslot⟩ := List.mem_map.mp hin
            exact hstart (hslot ▸ ((hplaced.mem_nodesAt hnodes same).mp hsame).2)
          rw [handedTo, if_pos (.inr hstart)]
          exact foldl_insertCompleted_other hout _
      · rw [endedBy, if_neg hend, List.append_nil]

/-- The nodes of a column do not hand anything to each other. -/
def Apart (composing : ComposingText) (map : DualIndexMap) (nodes : List LatticeNode) : Prop :=
  ∀ node ∈ nodes, ∀ other ∈ nodes, ¬EndsText composing (map.dual node.range.endIndex) →
    other.slot.1 ∉ (map.dual node.range.endIndex).starts

theorem Apart.handedTo_eq_nil {nodes : List LatticeNode} (h : Apart composing map nodes)
    (hnode : node ∈ nodes) {other : LatticeNode} (hother : other ∈ nodes)
    (leads : List Predecessor) :
    handedTo lookups context constraint composing (map.dual node.range.endIndex) node leads other =
      [] := by
  rw [handedTo, if_pos]
  by_cases hend : EndsText composing (map.dual node.range.endIndex)
  · exact .inl hend
  · exact .inr (h node hnode other hother hend)

theorem foldlM_processNode (hplaced : lattice.Placed composing) {nodes : List LatticeNode}
    (hhas : ∀ node ∈ nodes, lattice.Has node) (hapart : Apart composing map nodes) :
    ((nodes.foldlM (processNode lookups context nBest map constraint composing lattice)
        state).isSome ↔
      ∀ node ∈ nodes, Stays composing (map.dual node.range.endIndex)
        (state.predecessors node.slot)) ∧
      ∀ final, nodes.foldlM (processNode lookups context nBest map constraint composing lattice)
        state = some final →
        (∀ after, lattice.Has after → final.predecessors after.slot =
          (nodes.flatMap fun node => handedTo lookups context constraint composing
            (map.dual node.range.endIndex) node (state.predecessors node.slot) after).foldl
              (insertPredecessor nBest) (state.predecessors after.slot)) ∧
          final.results = state.results ++ nodes.flatMap fun node => endedBy lookups context
            constraint composing (map.dual node.range.endIndex) node
              (state.predecessors node.slot) := by
  induction nodes generalizing state with
  | nil =>
    refine ⟨by simp, fun final h => ?_⟩
    obtain rfl : state = final := Option.some.inj h
    exact ⟨fun _ _ => rfl, (List.append_nil _).symm⟩
  | cons first rest ih =>
    have hrest : Apart composing map rest := fun node hnode other hother =>
      hapart node (List.mem_cons_of_mem _ hnode) other (List.mem_cons_of_mem _ hother)
    have hhasRest : ∀ node ∈ rest, lattice.Has node :=
      fun node hnode => hhas node (List.mem_cons_of_mem _ hnode)
    rw [List.foldlM_cons]
    cases hfirst : processNode lookups context nBest map constraint composing lattice
        state first with
    | none =>
      have hleaves :=
        (@processNode_isSome _ _ lookups context nBest constraint composing map lattice
        state first hplaced).not.mp (by simp [hfirst])
      refine ⟨iff_of_false (by simp) fun hall => hleaves (hall first List.mem_cons_self), ?_⟩
      intro final h
      exact absurd h (by simp)
    | some middle =>
      have hstays := (@processNode_isSome _ _ lookups context nBest constraint composing map lattice
        state first hplaced).mp (by simp [hfirst])
      obtain ⟨hleads, hresults⟩ := processNode_spec hplaced hfirst
      -- the rest of the column still has the leads it had
      have hsame : ∀ node ∈ rest,
          middle.predecessors node.slot = state.predecessors node.slot := by
        intro node hnode
        rw [hleads node (hhasRest node hnode), hapart.handedTo_eq_nil List.mem_cons_self
          (List.mem_cons_of_mem _ hnode)]
        rfl
      obtain ⟨hsome, hspec⟩ := @ih middle hhasRest hrest
      constructor
      · rw [List.forall_mem_cons, Option.bind_eq_bind, Option.bind_some, hsome]
        refine (and_iff_right hstays).symm.trans (and_congr_right fun _ => ?_)
        refine forall₂_congr fun node hnode => ?_
        rw [hsame node hnode]
      · intro final h
        obtain ⟨hfinal, hfinalResults⟩ := hspec final h
        have hmap : ∀ {γ : Type} (f : LatticeNode → List Predecessor → List γ),
            (rest.flatMap fun node => f node (middle.predecessors node.slot)) =
              rest.flatMap fun node => f node (state.predecessors node.slot) :=
          fun f => List.flatMap_congr fun node hnode => by rw [hsame node hnode]
        refine ⟨fun after hafter => ?_, ?_⟩
        · rw [hfinal after hafter, hleads after hafter, List.flatMap_cons, List.foldl_append]
          rw [hmap fun node leads => handedTo lookups context constraint composing
            (map.dual node.range.endIndex) node leads after]
        · rw [hfinalResults, hresults, List.flatMap_cons, List.append_assoc]
          rw [hmap fun node leads => endedBy lookups context constraint composing
            (map.dual node.range.endIndex) node leads]

end process

/-! ### Nodes without their places -/

def LatticeNode.unplaced (node : LatticeNode) : LatticeNode :=
  { node with slot := (node.slot.1, 0) }

def Predecessor.unplaced (lead : Predecessor) : Predecessor :=
  ⟨lead.nodes.map LatticeNode.unplaced, lead.total⟩

def RegisteredPath.unplaced (path : RegisteredPath) : RegisteredPath :=
  ⟨path.nodes.map LatticeNode.unplaced, path.total⟩

section unplaced
variable {unicode : UnicodeTable} {lookups : Lookups unicode} {meaningCost : Nat → Nat → ℚ}
  {context : ConversionContext} {constraint : Option PrefixConstraint} {composing : ComposingText}

theorem pathBytes_unplaced (nodes : List LatticeNode) :
    pathBytes (nodes.map LatticeNode.unplaced) = pathBytes nodes := by
  rw [pathBytes, pathBytes, ← List.map_reverse, List.flatMap_map]
  rfl

theorem completedBy_unplaced [Rounding] (node : LatticeNode) (leads : List Predecessor) :
    (completedBy lookups context constraint node leads).map RegisteredPath.unplaced =
      completedBy lookups context constraint node.unplaced (leads.map Predecessor.unplaced) := by
  have hallows : allowsPath constraint node.unplaced.entry ∘ RegisteredPath.unplaced =
      allowsPath constraint node.entry := by
    funext path
    simp only [Function.comp_apply, allowsPath, RegisteredPath.unplaced, pathBytes_unplaced]
    rfl
  have hpaths : (leads.map Predecessor.unplaced).map (completePath lookups context node.unplaced) =
      (leads.map (completePath lookups context node)).map RegisteredPath.unplaced := by
    rw [List.map_map, List.map_map]
    rfl
  rw [completedBy, completedBy, hpaths]
  conv_rhs => rw [List.filter_map, hallows]

theorem handedTo_unplaced [Rounding] (next : DualIndex) (node : LatticeNode)
    (leads : List Predecessor)
    (after : LatticeNode) :
    (handedTo lookups context constraint composing next node leads after).map
        Predecessor.unplaced =
      handedTo lookups context constraint composing next node.unplaced
        (leads.map Predecessor.unplaced) after.unplaced := by
  have hallows : allowsNext constraint after.unplaced.entry ∘ RegisteredPath.unplaced =
      allowsNext constraint after.entry := by
    funext path
    simp only [Function.comp_apply, allowsNext, RegisteredPath.unplaced, pathBytes_unplaced]
    rfl
  have hstart : after.unplaced.slot.1 = after.slot.1 := rfl
  rw [handedTo, handedTo, hstart]
  split
  · rfl
  · rw [← completedBy_unplaced, List.filter_map, hallows, List.map_map, List.map_map]
    rfl

theorem endedBy_unplaced [Rounding] (next : DualIndex) (node : LatticeNode)
    (leads : List Predecessor) :
    (endedBy lookups context constraint composing next node leads).map RegisteredPath.unplaced =
      endedBy lookups context constraint composing next node.unplaced
        (leads.map Predecessor.unplaced) := by
  have hallows : allowsResult constraint node.unplaced.entry ∘ RegisteredPath.unplaced =
      allowsResult constraint node.entry := by
    funext path
    simp only [Function.comp_apply, allowsResult, RegisteredPath.unplaced, pathBytes_unplaced]
    rfl
  rw [endedBy, endedBy]
  split
  · rw [← completedBy_unplaced, List.filter_map, hallows]
  · rfl

theorem pathTotal_unplaced [Rounding] (nodes : List LatticeNode) :
    pathTotal lookups context (nodes.map LatticeNode.unplaced) =
      pathTotal lookups context nodes := by
  induction nodes with
  | nil => rfl
  | cons node before ih =>
    cases before with
    | nil => rfl
    | cons last before =>
      rw [List.map_cons] at ih
      rw [List.map_cons, List.map_cons, pathTotal, pathTotal, ih]
      rfl

theorem makeCandidate_unplaced [Rounding] (path : RegisteredPath) :
    makeCandidate lookups meaningCost context path.unplaced =
      makeCandidate lookups meaningCost context path := by
  have hclauses : ∀ nodes : List LatticeNode,
      clausesOf lookups context (nodes.map LatticeNode.unplaced) =
        clausesOf lookups context nodes := by
    intro nodes
    induction nodes with
    | nil => rfl
    | cons node before ih =>
      rw [List.map_cons, clausesOf, clausesOf, ih, ← List.map_cons, pathTotal_unplaced]
      rfl
  rw [makeCandidate, makeCandidate, RegisteredPath.unplaced]
  dsimp only
  rw [hclauses, List.any_map]
  rfl

end unplaced

/-! ### The search over columns -/

/-- The leads of each node, whatever its place, and the complete paths so far. -/
structure ColumnState where
  leads : LatticeNode → List Predecessor
  results : List RegisteredPath

section columns
variable [Rounding] {unicode : UnicodeTable} (lookups : Lookups unicode)
  (context : ConversionContext) (nBest : Nat) (constraint : Option PrefixConstraint)
  (composing : ComposingText)
  (next : LatticeNode → DualIndex)

def ColumnState.start : ColumnState :=
  { leads := fun node => startPredecessors node.slot
    results := [] }

def searchColumn (state : ColumnState) (column : List LatticeNode) : Option ColumnState :=
  if ∀ node ∈ column, Stays composing (next node) (state.leads node) then
    some
      { leads := fun after =>
          (column.flatMap fun node => handedTo lookups context constraint composing (next node) node
            (state.leads node) after).foldl (insertPredecessor nBest) (state.leads after)
        results := state.results ++ column.flatMap fun node =>
          endedBy lookups context constraint composing (next node) node (state.leads node) }
  else none

def searchColumns (column : DualIndex → Option (List LatticeNode)) (indices : List DualIndex) :
    Option ColumnState :=
  indices.foldlM (fun state index =>
    (column index).bind (searchColumn lookups context nBest constraint composing next state)) .start

end columns

/-- The leads of every node fall and keep to the bound. -/
def ColumnState.Ranked (nBest : Nat) (state : ColumnState) : Prop :=
  ∀ node, TopK.Falling Predecessor.total (state.leads node) ∧ (state.leads node).length ≤ nBest

structure SearchState.Shows (lattice : LatticeNodes) (state : SearchState) (columns : ColumnState) :
    Prop where
  leads : ∀ node, lattice.Has node →
    (state.predecessors node.slot).map Predecessor.unplaced = columns.leads node.unplaced
  results : state.results.map RegisteredPath.unplaced = columns.results

section refinement
variable {unicode : UnicodeTable} {lookups : Lookups unicode} {context : ConversionContext}
  {nBest : Nat} {constraint : Option PrefixConstraint} {composing : ComposingText}
  {map : DualIndexMap} {lattice : LatticeNodes} {state : SearchState} {columns : ColumnState}

theorem ColumnState.start_ranked (hn : 0 < nBest) : ColumnState.start.Ranked nBest := by
  intro node
  rw [start]
  dsimp only [startPredecessors]
  split
  · exact ⟨List.pairwise_singleton _ _, hn⟩
  · exact ⟨List.pairwise_singleton _ _, hn⟩
  · exact ⟨List.Pairwise.nil, Nat.zero_le _⟩

theorem SearchState.Shows.column [Rounding] (hplaced : lattice.Placed composing)
    (h : state.Shows lattice columns)
    (hranked : columns.Ranked nBest) {nodes : List LatticeNode}
    (hhas : ∀ node ∈ nodes, lattice.Has node) (hapart : Apart composing map nodes) :
    Option.Rel (fun state columns => state.Shows lattice columns ∧ columns.Ranked nBest)
      (nodes.foldlM (processNode lookups context nBest map constraint composing lattice) state)
      (searchColumn lookups context nBest constraint composing
        (fun node => map.dual node.range.endIndex)
        columns (nodes.map LatticeNode.unplaced)) := by
  obtain ⟨hsome, hspec⟩ := @foldlM_processNode _ _ lookups context nBest constraint composing map
    lattice state hplaced nodes hhas hapart
  have hnil : ∀ node ∈ nodes,
      state.predecessors node.slot = [] ↔ columns.leads node.unplaced = [] := by
    intro node hnode
    rw [← h.leads node (hhas node hnode), List.map_eq_nil_iff]
  have hstays : (∀ node ∈ nodes, Stays composing (map.dual node.range.endIndex)
      (state.predecessors node.slot)) ↔ ∀ node ∈ nodes.map LatticeNode.unplaced,
        Stays composing (map.dual node.range.endIndex) (columns.leads node) := by
    rw [List.forall_mem_map]
    refine forall₂_congr fun node hnode => ?_
    rw [Stays, Stays, hnil node hnode]
    rfl
  cases hrun : nodes.foldlM (processNode lookups context nBest map constraint composing lattice)
      state with
  | none =>
    have hleaves := hsome.not.mp (by simp [hrun])
    rw [searchColumn, if_neg (hstays.not.mp hleaves)]
    exact .none
  | some final =>
    have hall := hstays.mp (hsome.mp (by simp [hrun]))
    obtain ⟨hleads, hresults⟩ := hspec final hrun
    rw [searchColumn, if_pos hall]
    refine .some ⟨⟨fun after hafter => ?_, ?_⟩, ?_⟩
    · have htotals : ∀ lead : Predecessor, lead.unplaced.total = lead.total := fun _ => rfl
      have hbefore := hranked after.unplaced
      rw [← h.leads after hafter, TopK.Falling, List.pairwise_map, List.length_map] at hbefore
      rw [hleads after hafter]
      refine (map_foldl_insertBounded htotals hbefore.1 hbefore.2 _).trans ?_
      rw [h.leads after hafter, List.map_flatMap]
      congr 1
      rw [List.flatMap_map]
      refine List.flatMap_congr fun node hnode => ?_
      rw [handedTo_unplaced, h.leads node (hhas node hnode)]
      rfl
    · rw [hresults, List.map_append, h.results, List.map_flatMap, List.flatMap_map]
      congr 1
      refine List.flatMap_congr fun node hnode => ?_
      rw [endedBy_unplaced, h.leads node (hhas node hnode)]
      rfl
    · exact fun node => foldl_insertBounded_falling (hranked node).1 (hranked node).2 _

def LatticeNodes.columnAt (lattice : LatticeNodes) (index : DualIndex) :
    Option (List LatticeNode) :=
  (lattice.nodesAt index).map fun nodes => nodes.map LatticeNode.unplaced

theorem processIndex_columns [Rounding] (hn : 0 < nBest) (hplaced : lattice.Placed composing)
    (indices : List DualIndex)
    (hapart : ∀ index ∈ indices, ∀ nodes, lattice.nodesAt index = some nodes →
      Apart composing map nodes) :
    Option.Rel (fun state columns => state.Shows lattice columns ∧ columns.Ranked nBest)
      (indices.foldlM (processIndex lookups context nBest map constraint composing lattice)
        ⟨startPredecessors, []⟩)
      (searchColumns lookups context nBest constraint composing
        (fun node => map.dual node.range.endIndex) lattice.columnAt indices) := by
  refine Loop.foldlM_rel indices ⟨⟨fun node _ => ?_, rfl⟩, ColumnState.start_ranked hn⟩ ?_
  · dsimp only [ColumnState.start, LatticeNode.unplaced]
    obtain ⟨⟨start, place⟩, entry, range⟩ := node
    rcases start with (_ | start) | (_ | start) <;> rfl
  · rintro index hindex state columns ⟨hshows, hranked⟩
    rw [processIndex, LatticeNodes.columnAt]
    cases hnodes : lattice.nodesAt index with
    | none =>
      rw [Option.bind_none, Option.map_none, Option.bind_none]
      exact .none
    | some nodes =>
      rw [Option.bind_some, Option.map_some, Option.bind_some]
      exact hshows.column hplaced hranked
        (fun node hnode => ((hplaced.mem_nodesAt hnodes node).mp hnode).1)
        (hapart index hindex nodes hnodes)

end refinement

end BeanKey.Lattice
