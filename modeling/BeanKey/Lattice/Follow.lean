import BeanKey.Input.Landing
import BeanKey.Lattice.Seeds

/-! The paths of a search with typo correction, and where their counts lead along the boundaries of
the input. -/
namespace BeanKey.Lattice
open Input TopK Zenz

/-! ### The paths of a search -/

variable {tables : InputTableRegistry}

section search
variable {unicode : UnicodeTable} {order : HashOrder}
  {composing : ComposingText} {lookups : Lookups unicode} {context : ConversionContext}
  {modifiers : ConversionModifiers} {nBest : Nat} {lattice : LatticeNodes} {map : DualIndexMap}

/-- Every lead of a node makes a chain with it, and every result is a chain that ends the text. -/
structure SearchChains (composing : ComposingText) (map : DualIndexMap) (lattice : LatticeNodes)
    (state : SearchState) : Prop where
  leads : ∀ node, lattice.Has node → ∀ lead ∈ state.predecessors node.slot,
    lattice.IsChain map none (node :: lead.nodes)
  results : ∀ path ∈ state.results, ∃ node before, path.nodes = node :: before ∧
    lattice.IsChain map none (node :: before) ∧ EndsText composing (map.dual node.range.endIndex)

theorem searchChains_start : SearchChains composing map lattice ⟨startPredecessors, []⟩ := by
  refine ⟨?_, fun _ hin => absurd hin List.not_mem_nil⟩
  intro node hnode lead hlead
  rcases hslot : node.slot with ⟨start | start, place⟩ <;> rw [hslot] at hlead <;>
    cases start with
    | zero =>
      obtain rfl := List.mem_singleton.mp hlead
      exact .start hnode (by simp [hslot]) rfl
    | succ start => exact absurd hlead List.not_mem_nil

theorem SearchChains.processNode (hplaced : lattice.Placed composing) {state next : SearchState}
    {node : LatticeNode} (hstate : SearchChains composing map lattice state)
    (hnode : lattice.Has node)
    (hnext : processNode lookups context nBest map modifiers.constraint composing lattice state
      node = some next) : SearchChains composing map lattice next := by
  have hcompleted : ∀ path ∈ completedBy lookups context modifiers.constraint node
      (state.predecessors node.slot),
      ∃ before, path.nodes = node :: before ∧ lattice.IsChain map none (node :: before) := by
    intro path hpath
    obtain ⟨lead, hlead, rfl⟩ := List.mem_map.mp (List.mem_of_mem_filter hpath)
    exact ⟨lead.nodes, rfl, hstate.leads node hnode lead hlead⟩
  obtain ⟨hpredecessors, hresults⟩ := processNode_spec hplaced hnext
  constructor
  · intro after hafter lead hlead
    rw [hpredecessors after hafter] at hlead
    cases mem_foldl_insertBounded hlead with
    | inl hold => exact hstate.leads after hafter lead hold
    | inr hnew =>
      rw [handedTo] at hnew
      split at hnew
      · exact absurd hnew List.not_mem_nil
      · next hnot =>
        rw [not_or, not_not] at hnot
        obtain ⟨path, hpath, rfl⟩ := List.mem_map.mp hnew
        obtain ⟨before, hnodes, hchain⟩ := hcompleted path (List.mem_of_mem_filter hpath)
        rw [extendTo, hnodes]
        exact .step hafter hnot.2 rfl hchain
  · intro path hpath
    rw [hresults] at hpath
    rcases List.mem_append.mp hpath with hold | hnew
    · exact hstate.results path hold
    · rw [endedBy] at hnew
      split at hnew
      · next hend =>
        obtain ⟨before, hnodes, hchain⟩ := hcompleted path (List.mem_of_mem_filter hnew)
        exact ⟨node, before, hnodes, hchain, hend⟩
      · exact absurd hnew List.not_mem_nil

theorem latticeResults_chains {results : List RegisteredPath}
    (hresults : latticeResults lookups context nBest order tables modifiers composing =
      some results) {path : RegisteredPath} (hpath : path ∈ results) :
    ∃ lattice, buildLattice lookups order tables modifiers composing = some lattice ∧
      ∃ node before, path.nodes = node :: before ∧
        lattice.IsChain (.new order composing tables) none (node :: before) ∧
        EndsText composing
          ((DualIndexMap.new order composing tables).dual node.range.endIndex) := by
  rw [latticeResults] at hresults
  split at hresults
  · obtain rfl := Option.some.inj hresults
    exact absurd hpath List.not_mem_nil
  · obtain ⟨lattice, hbuild, hrun⟩ := Option.bind_eq_some_iff.mp hresults
    obtain ⟨final, hfinal, rfl⟩ := Option.map_eq_some_iff.mp hrun
    have hplaced := buildLattice_placed hbuild
    have hchains : SearchChains composing (.new order composing tables) lattice final := by
      refine Loop.foldlM_keeps
        (fun _ state => SearchChains composing (.new order composing tables) lattice state) _ hfinal
        searchChains_start ?_
      intro _ index _ state next _ hstate hindex
      obtain ⟨nodes, hnodes, hcolumn⟩ := Option.bind_eq_some_iff.mp hindex
      refine Loop.foldlM_keeps
        (fun _ state => SearchChains composing (.new order composing tables) lattice state) nodes
        hcolumn hstate ?_
      intro _ node _ state next hsplit hstate hnext
      exact hstate.processNode hplaced
        ((hplaced.mem_nodesAt hnodes node).mp (by simp [hsplit])).1 hnext
    exact ⟨lattice, hbuild, hchains.results path hpath⟩

end search

/-! ### Counts of chains -/

/-- A combined count leads where its two parts lead one after the other. -/
theorem follow_combineCounts {input : List InputElement} {limit : Nat} {left right : ComposingCount}
    {standing middle final : Standing}
    (hmiddle : left.follow (independentBoundaries tables input) limit standing = some middle)
    (hfinal : right.follow (independentBoundaries tables input) limit middle = some final) :
    (combineCounts left right).follow (independentBoundaries tables input) limit standing =
      some final := by
  have hcomposite : (ComposingCount.composite left right).follow
      (independentBoundaries tables input) limit standing = some final :=
    Option.bind_eq_some_iff.mpr ⟨middle, hmiddle, hfinal⟩
  rw [combineCounts.eq_def]
  split
  · next first second =>
    cases standing with
    | within surface => cases hmiddle
    | atInput index =>
      obtain rfl := Option.some.inj hmiddle
      rw [← hfinal, ComposingCount.follow, ComposingCount.follow, Nat.add_assoc]
  · next first second =>
    rw [ComposingCount.follow] at hmiddle hfinal ⊢
    by_cases hsecond : second = 0
    · rw [if_pos hsecond] at hfinal
      obtain rfl := Option.some.inj hfinal
      rw [hsecond, Nat.add_zero]
      exact hmiddle
    · rw [if_neg hsecond] at hfinal
      by_cases hfirst : first = 0
      · rw [if_pos hfirst] at hmiddle
        obtain rfl := Option.some.inj hmiddle
        rw [hfirst, Nat.zero_add, if_neg hsecond]
        exact hfinal
      · rw [if_neg hfirst] at hmiddle
        obtain ⟨surface, hstanding, hstep⟩ := Option.bind_eq_some_iff.mp hmiddle
        split at hstep
        · obtain rfl := Option.some.inj hstep
          rw [ComposingText.standingAt_surface, Option.bind_some] at hfinal
          rw [if_neg (by omega), hstanding, Option.bind_some, ← Nat.add_assoc]
          exact hfinal
        · cases hstep
  · exact hcomposite

/-! ### Chains along the boundaries -/

section chains
variable {order : HashOrder} {composing : ComposingText} {lattice : LatticeNodes}

/-- No two boundaries share a surface position. -/
def Distinct (tables : InputTableRegistry) (input : List InputElement) : Prop :=
  ∀ pair ∈ independentBoundaries tables input, ∀ pair' ∈ independentBoundaries tables input,
    pair.surface = pair'.surface → pair = pair'

theorem boundaries_of_direct {input : List InputElement}
    (h : ∀ element ∈ input, element.inputStyle = .direct ∧ element.piece.displayed.isSome) :
    (convertElements tables input).length = input.length ∧
      ∀ index ≤ input.length, ⟨index, index⟩ ∈ independentBoundaries tables input := by
  induction input using List.reverseRecOn with
  | nil =>
    refine ⟨rfl, fun index hle => ?_⟩
    obtain rfl : index = 0 := Nat.le_zero.mp hle
    exact zero_mem_boundaries tables []
  | append_singleton input element ih =>
    obtain ⟨hinput, helement⟩ := List.forall_mem_append.mp h
    obtain ⟨hlength, hall⟩ := ih hinput
    obtain ⟨hstyle, hshown⟩ := helement element (List.mem_singleton_self element)
    obtain ⟨value, hvalue⟩ := Option.isSome_iff_exists.mp hshown
    have hupdate : ∀ surface, updateSurface tables surface element.piece element.inputStyle =
        (surface ++ [value], 0) := by
      intro surface
      rw [hstyle, updateSurface, InputTableRegistry.resolve, hvalue]
      rfl
    have hstep : (updateSegments tables (segmentsOf tables input) element).2 = 0 ∧
        (segmentsSurface (updateSegments tables (segmentsOf tables input) element).1).length =
          (segmentsSurface (segmentsOf tables input)).length + 1 := by
      cases segmentsOf tables input with
      | nil =>
        have hpiece : element.piece ≠ .compositionSeparator := by
          intro heq
          rw [heq] at hvalue
          cases hvalue
        rw [updateSegments_first element hpiece, hupdate]
        exact ⟨rfl, rfl⟩
      | cons last rest =>
        by_cases hsame : last.inputStyle = element.inputStyle
        · rw [updateSegments_same tables last rest element hsame, hupdate]
          simp [Nat.add_assoc]
        · rw [updateSegments_other tables last rest element hsame, hupdate]
          simp [Nat.add_assoc]
    have hlength' : (convertElements tables (input ++ [element])).length = input.length + 1 := by
      rw [convertElements, segmentsOf_concat, hstep.2, ← hlength]
      rfl
    refine ⟨by rw [hlength', List.length_append]; rfl, fun index hle => ?_⟩
    rw [mem_boundaries_concat, hlength', hstep.1, hlength]
    by_cases hend : index = input.length + 1
    · exact .inl (by rw [hend])
    · rw [List.length_append, List.length_singleton] at hle
      exact .inr ⟨hall index (by omega), by simp only; omega⟩

/-- Every position that the index map pairs is a boundary. -/
theorem mem_boundaries_of_map {input surface : Nat}
    (h : (input, surface) ∈ composing.inputToSurfaceMap tables) :
    ⟨input, surface⟩ ∈ independentBoundaries tables composing.input := by
  rw [ComposingText.inputToSurfaceMap] at h
  split at h
  · next hidentity =>
    obtain ⟨index, hindex, heq⟩ := List.mem_map.mp h
    obtain ⟨rfl, rfl⟩ := Prod.mk.inj heq
    simp only [ComposingText.hasIdentityMapping, Bool.and_eq_true, decide_eq_true_eq,
      List.all_eq_true] at hidentity
    refine (boundaries_of_direct fun element hin => ?_).2 index
      (Nat.lt_succ_iff.mp (List.mem_range.mp hindex))
    obtain ⟨hstyle, hpiece⟩ := hidentity.2 element hin
    refine ⟨hstyle, ?_⟩
    cases hsame : element.piece with
    | character value => rfl
    | compositionSeparator => simp [hsame] at hpiece
    | key intention input modifiers => rfl
  · obtain ⟨pair, hpair, heq⟩ := List.mem_map.mp h
    obtain ⟨rfl, rfl⟩ := Prod.mk.inj heq
    exact hpair

def standingAfter (tables : InputTableRegistry) (composing : ComposingText) :
    LatticeRange → Standing
  | .input _ last => .atInput last
  | .surface _ last => standingAt (independentBoundaries tables composing.input) last

def LatticeRange.endsWithin (composing : ComposingText) : LatticeRange → Prop
  | .input _ _ => True
  | .surface _ last => last ≤ composing.surface.length

theorem follow_node {node : LatticeNode} (hspans : node.Spans)
    (hwithin : node.range.endsWithin composing) {standing : Standing}
    (hsurface : ∀ start, node.slot.1 = .surface start →
      standing.surface? (independentBoundaries tables composing.input) = some start)
    (hinput : ∀ start, node.slot.1 = .input start → standing = .atInput start) :
    node.range.count.follow (independentBoundaries tables composing.input)
      composing.surface.length standing = some (standingAfter tables composing node.range) := by
  obtain ⟨first, last, hlt, ⟨hslot, hrange⟩ | ⟨hslot, hrange⟩⟩ := hspans
  · rw [hrange] at hwithin ⊢
    have hlast : last ≤ composing.surface.length := hwithin
    rw [LatticeRange.count, ComposingCount.follow, if_neg (by omega), hsurface first hslot,
      Option.bind_some, if_pos (by omega), show first + (last - first) = last by omega]
    rfl
  · rw [hrange, hinput first hslot, LatticeRange.count, ComposingCount.follow,
      show first + (last - first) = last by omega]
    rfl

theorem LatticeNodes.Placed.has_within (h : lattice.Placed composing) {node : LatticeNode}
    (hnode : lattice.Has node) : node.slot.1.isWithin composing = true := by
  obtain ⟨start, nodes, hnodes, hmem⟩ := LatticeNodes.has_iff.mp hnode
  rw [(h.spans start nodes hnodes node hmem).1, ← h.within, hnodes]
  rfl

theorem identity_mem_map (h : (DualIndexMap.new order composing tables).identity = true)
    {index : Nat} (hle : index ≤ composing.surface.length) :
    (index, index) ∈ composing.inputToSurfaceMap tables := by
  obtain ⟨hcount, hall⟩ := DualIndexMap.identity_spec h
  exact hall index (by omega)

theorem mem_map_of_input_start {last surface : Nat}
    (hstart : .surface surface ∈
      ((DualIndexMap.new order composing tables).dual (.input last)).starts)
    (hin : (LatticeIndex.surface surface).isWithin composing = true) :
    (last, surface) ∈ composing.inputToSurfaceMap tables := by
  simp only [LatticeIndex.isWithin, decide_eq_true_eq] at hin
  rcases DualIndexMap.starts_dual_input order last hstart with heq | ⟨other, heq, hcases⟩
  · cases heq
  · cases heq
    rcases hcases with ⟨hid, rfl⟩ | ⟨-, hmem⟩
    · exact identity_mem_map hid hin.le
    · exact hmem

theorem mem_map_of_surface_start {last input : Nat}
    (hstart : .input input ∈
      ((DualIndexMap.new order composing tables).dual (.surface last)).starts)
    (hin : (LatticeIndex.input input).isWithin composing = true) :
    (input, last) ∈ composing.inputToSurfaceMap tables := by
  simp only [LatticeIndex.isWithin, decide_eq_true_eq] at hin
  rcases DualIndexMap.starts_dual_surface order last hstart with heq | ⟨other, heq, hcases⟩
  · cases heq
  · cases heq
    rcases hcases with ⟨hid, rfl⟩ | ⟨-, hmem⟩
    · have hcount := (DualIndexMap.identity_spec hid).1
      exact identity_mem_map hid (by omega)
    · exact hmem

theorem standingAfter_starts (hdistinct : Distinct tables composing.input)
    {range : LatticeRange} {start : LatticeIndex}
    (hstart : start ∈ ((DualIndexMap.new order composing tables).dual range.endIndex).starts)
    (hin : start.isWithin composing = true) :
    (∀ surface, start = .surface surface → (standingAfter tables composing range).surface?
        (independentBoundaries tables composing.input) = some surface) ∧
      ∀ input, start = .input input → standingAfter tables composing range = .atInput input := by
  cases range with
  | input first last =>
    constructor
    · rintro surface rfl
      have hmem := mem_boundaries_of_map (mem_map_of_input_start hstart hin)
      exact surface?_atInput.mpr hmem
    · rintro input rfl
      rcases DualIndexMap.starts_dual_input order last hstart with heq | ⟨other, heq, -⟩
      · cases heq
        rfl
      · cases heq
  | surface first last =>
    constructor
    · rintro surface rfl
      rcases DualIndexMap.starts_dual_surface order last hstart with heq | ⟨other, heq, -⟩
      · cases heq
        exact ComposingText.standingAt_surface last
      · cases heq
    · rintro input rfl
      have hmem := mem_boundaries_of_map (mem_map_of_surface_start hstart hin)
      rw [standingAfter, standingAt]
      cases hfound : boundaryAt (independentBoundaries tables composing.input) last with
      | none => exact absurd rfl (boundaryAt_eq_none.mp hfound _ hmem)
      | some pair =>
        obtain ⟨hin', hsurface, -⟩ := boundaryAt_eq_some.mp hfound
        rw [hdistinct pair hin' _ hmem hsurface]

section
variable (hc : composing.Coherent tables) (hdistinct : Distinct tables composing.input)
  (hplaced : lattice.Placed composing)
include hc

/-- A range that another node goes on from ends within the surface. -/
theorem endsWithin_of_starts {range : LatticeRange} {start : LatticeIndex}
    (hstart : start ∈ ((DualIndexMap.new order composing tables).dual range.endIndex).starts)
    (hin : start.isWithin composing = true) : range.endsWithin composing := by
  cases range with
  | input first last => trivial
  | surface first last =>
    cases start with
    | surface surface =>
      rcases DualIndexMap.starts_dual_surface order last hstart with heq | ⟨other, heq, -⟩
      · cases heq
        simp only [LatticeIndex.isWithin, decide_eq_true_eq] at hin
        exact hin.le
      · cases heq
    | input input =>
      exact (mapWithin hc.surface).surface_le _ (mem_map_of_surface_start hstart hin)

include hdistinct hplaced

/-- The count of a chain leads to the end of its last node. -/
theorem IsChain_follow {node : LatticeNode} {before : List LatticeNode}
    (hchain : lattice.IsChain (.new order composing tables) none (node :: before))
    (hwithin : node.range.endsWithin composing) :
    (countOf ((node :: before).reverse.map LatticeNode.range)).follow
        (independentBoundaries tables composing.input) composing.surface.length (.atInput 0) =
      some (standingAfter tables composing node.range) := by
  induction before generalizing node with
  | nil =>
    cases hchain with
    | start hhas hzero _ =>
      apply follow_node (hplaced.has_spans hhas) hwithin
      · intro start hslot
        obtain rfl : start = 0 := by simpa [hslot] using hzero
        exact surface?_atInput.mpr (zero_mem_boundaries tables _)
      · intro start hslot
        obtain rfl : start = 0 := by simpa [hslot] using hzero
        rfl
  | cons last before ih =>
    cases hchain with
    | step hhas hstart _ hrest =>
      have hin := hplaced.has_within hhas
      obtain ⟨hsurface, hinput⟩ := standingAfter_starts hdistinct hstart hin
      have hne : (last :: before).reverse.map LatticeNode.range ≠ [] := by simp
      rw [List.reverse_cons, List.map_append, List.map_singleton, countOf_concat hne]
      exact follow_combineCounts (ih hrest (endsWithin_of_starts hc hstart hin))
        (follow_node (hplaced.has_spans hhas) hwithin hsurface hinput)

omit hdistinct hplaced in
theorem standingAfter_ends {node : LatticeNode}
    (hend : EndsText composing
      ((DualIndexMap.new order composing tables).dual node.range.endIndex)) :
    node.range.endsWithin composing ∧ (standingAfter tables composing node.range).surface?
      (independentBoundaries tables composing.input) = some composing.surface.length := by
  have hmap := mapWithin hc.surface
  have hboundary : ∀ index, (index, composing.surface.length) ∈ composing.inputToSurfaceMap tables →
      (Standing.atInput index).surface? (independentBoundaries tables composing.input) =
        some composing.surface.length := fun index hmem =>
    surface?_atInput.mpr (mem_boundaries_of_map hmem)
  cases hrange : node.range with
  | input first last =>
    rw [hrange] at hend
    refine ⟨trivial, ?_⟩
    rcases hend with hsurface | hinput
    · rw [LatticeRange.endIndex, DualIndexMap.dual] at hsurface
      split at hsurface
      · next hid =>
        obtain rfl : last = composing.surface.length := Option.some.inj hsurface
        obtain ⟨hcount, hall⟩ := DualIndexMap.identity_spec hid
        exact hboundary _ (hall _ hcount.ge)
      · split at hsurface
        · next found hfound =>
          obtain rfl : found = composing.surface.length := Option.some.inj hsurface
          exact hboundary last (mem_of_lookup hfound)
        · cases hsurface
    · have hlast : last = composing.input.length := by
        have := @DualIndexMap.dual_input tables order composing last
        rw [LatticeRange.endIndex, this] at hinput
        exact Option.some.inj hinput
      have hmem := end_mem_boundaries tables composing.input
      rw [← hc.surface] at hmem
      rw [standingAfter, hlast]
      exact surface?_atInput.mpr hmem
  | surface first last =>
    rw [hrange] at hend
    have hlast : last = composing.surface.length := by
      have hsurface := @DualIndexMap.dual_surface tables order composing last
      rcases hend with hend | hinput
      · rw [LatticeRange.endIndex, hsurface] at hend
        exact Option.some.inj hend
      · rcases DualIndexMap.dual_surface_input_or hinput with ⟨hid, heq⟩ | hmem
        · rw [← heq, (DualIndexMap.identity_spec hid).1]
        · exact hmap.last _ hmem rfl
    rw [hlast]
    exact ⟨le_rfl, ComposingText.standingAt_surface _⟩

end

theorem IsChain_surface
    (hsurface : ∀ node, lattice.Has node → ∃ first last, first < last ∧
      node.slot.1 = .surface first ∧ node.range = .surface first last)
    {node : LatticeNode} {before : List LatticeNode}
    (hchain : lattice.IsChain (.new order composing tables) none (node :: before)) :
    ∃ first last, node.range = .surface first last ∧
      countOf ((node :: before).reverse.map LatticeNode.range) = .surface last := by
  induction before generalizing node with
  | nil =>
    cases hchain with
    | start hhas hzero _ =>
      obtain ⟨first, last, -, hslot, hrange⟩ := hsurface node hhas
      obtain rfl : first = 0 := by simpa [hslot] using hzero
      exact ⟨0, last, hrange, by simp [countOf, hrange, LatticeRange.count]⟩
  | cons previous before ih =>
    cases hchain with
    | step hhas hstart _ hrest =>
      obtain ⟨first, last, hlt, hslot, hrange⟩ := hsurface node hhas
      obtain ⟨first', middle, hprevious, hcount⟩ := ih hrest
      rw [hslot, hprevious] at hstart
      have hmeet : first = middle := by
        rcases DualIndexMap.starts_dual_surface order middle hstart with heq | ⟨other, heq, -⟩
        · exact LatticeIndex.surface.inj heq
        · cases heq
      have hne : (previous :: before).reverse.map LatticeNode.range ≠ [] := by simp
      refine ⟨first, last, hrange, ?_⟩
      rw [List.reverse_cons, List.map_append, List.map_singleton, countOf_concat hne, hcount,
        hrange, LatticeRange.count, combineCounts, hmeet, show middle + (last - middle) =
          last by omega]

theorem has_surface {unicode : UnicodeTable} {lookups : Lookups unicode}
    {modifiers : ConversionModifiers}
    (hbuild : buildLattice lookups order tables modifiers composing = some lattice)
    (htypo : modifiers.needTypoCorrection = false) {node : LatticeNode} (hnode : lattice.Has node) :
    ∃ first last, first < last ∧ node.slot.1 = .surface first ∧
      node.range = .surface first last := by
  obtain ⟨first, last, hlt, ⟨hslot, hrange⟩ | ⟨hslot, -⟩⟩ :=
    (buildLattice_placed hbuild).has_spans hnode
  · exact ⟨first, last, hlt, hslot, hrange⟩
  · have hcorrects := (exists_reading hbuild hnode hslot).1
    rw [htypo] at hcorrects
    cases hcorrects

/-- A beginning of a chain is a chain, and the next node starts where it ends. -/
theorem LatticeNodes.IsChain.beginning {map : DualIndexMap} {constraint : Option PrefixConstraint}
    {after before : List LatticeNode} {last : LatticeNode} (hne : after ≠ [])
    (h : lattice.IsChain map constraint (after ++ last :: before)) :
    lattice.IsChain map constraint (last :: before) ∧ ∃ next, lattice.Has next ∧
      next.slot.1 ∈ (map.dual last.range.endIndex).starts := by
  induction after with
  | nil => exact absurd rfl hne
  | cons next after ih =>
    cases after with
    | nil =>
      cases h with
      | step hhas hstart _ hrest => exact ⟨hrest, next, hhas, hstart⟩
    | cons second after =>
      cases h with
      | step _ _ _ hrest => exact ih (List.cons_ne_nil _ _) hrest

end chains

end BeanKey.Lattice
