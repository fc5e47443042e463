import BeanKey.Lattice.Constrained

/-! Whatever the constraint and however few predecessors are kept, the search follows paths of
the lattice only. -/
namespace BeanKey.Lattice
open Input TopK Zenz
variable {unicode : UnicodeTable} {tables : InputTableRegistry} {order : HashOrder}
  {composing : ComposingText} {lookups : Lookups unicode} {context : ConversionContext}
  {nBest : Nat} {lattice : LatticeNodes} {constraint : Option PrefixConstraint}

/-- Every predecessor leads to its node along a path, and every result reaches the end. -/
structure SearchSound (composing : ComposingText) (lattice : LatticeNodes) (state : SearchState) :
    Prop where
  leads : ∀ node, lattice.Has node → ∀ lead ∈ state.predecessors node.slot,
    lattice.IsPath (node :: lead.nodes)
  results : ∀ path ∈ state.results, lattice.IsComplete composing path.nodes

theorem searchSound_start (h : SurfaceLattice composing lattice) :
    SearchSound composing lattice ⟨startPredecessors, []⟩ := by
  refine ⟨?_, fun _ hin => absurd hin List.not_mem_nil⟩
  intro node hnode lead hlead
  obtain ⟨start, last, hslot, hrange, -⟩ := h.has_spec hnode
  have hslot' : node.slot = (.surface start, node.slot.2) := Prod.ext hslot rfl
  rw [hslot'] at hlead
  cases start with
  | zero =>
    obtain rfl := List.mem_singleton.mp hlead
    exact .start hnode (by rw [hrange]; rfl)
  | succ start => exact absurd hlead List.not_mem_nil

theorem SearchSound.processNode
    (hc : composing.surface = convertElements tables composing.input)
    (h : SurfaceLattice composing lattice) {state next : SearchState} {node : LatticeNode}
    (hstate : SearchSound composing lattice state) (hnode : lattice.Has node)
    (hnext : processNode lookups context nBest (DualIndexMap.new order composing tables) constraint
      composing lattice state node = some next) : SearchSound composing lattice next := by
  have hcompleted : ∀ path ∈ ((state.predecessors node.slot).map
      (completePath lookups context node)).filter (allowsPath constraint node.entry),
      ∃ before, path.nodes = node :: before ∧ lattice.IsPath (node :: before) := by
    intro path hpath
    obtain ⟨lead, hlead, rfl⟩ := List.mem_map.mp (List.mem_of_mem_filter hpath)
    exact ⟨lead.nodes, rfl, hstate.leads node hnode lead hlead⟩
  unfold Lattice.processNode at hnext
  dsimp only at hnext
  split at hnext
  · obtain rfl := Option.some.inj hnext
    exact hstate
  · split at hnext
    · next hend =>
      obtain rfl := Option.some.inj hnext
      refine ⟨hstate.leads, ?_⟩
      intro path hpath
      cases List.mem_append.mp hpath with
      | inl hold => exact hstate.results path hold
      | inr hnew =>
        obtain ⟨before, hnodes, hpath⟩ := hcompleted path (List.mem_of_mem_filter hnew)
        rw [hnodes]
        exact ⟨hpath, node, before, rfl, (h.ends_iff hc hnode).mp hend⟩
    · next hend =>
      obtain ⟨nodes, hnodes, hnodup, hhas, hmeet⟩ := h.next_nodes hc hnode hend
      rw [hnodes] at hnext
      obtain rfl := Option.some.inj hnext
      refine ⟨?_, hstate.results⟩
      intro after hafter lead hlead
      by_cases hin : after.slot ∈ nodes.map LatticeNode.slot
      · obtain ⟨same, hsame, hslot⟩ := List.mem_map.mp hin
        obtain rfl := h.eq_of_slot (hhas same hsame) hafter hslot
        dsimp only at hlead
        rw [foldl_insertCompleted_apply hnodup _ hsame] at hlead
        cases mem_foldl_insertBounded hlead with
        | inl hold => exact hstate.leads same hafter lead hold
        | inr hnew =>
          obtain ⟨path, hpath, rfl⟩ := List.mem_map.mp hnew
          obtain ⟨before, hbefore, hpath⟩ := hcompleted path (List.mem_of_mem_filter hpath)
          rw [extendTo, hbefore]
          exact .step hafter ((hmeet same hafter).mp hsame) hpath
      · dsimp only at hlead
        rw [foldl_insertCompleted_other hin] at hlead
        exact hstate.leads after hafter lead hlead

theorem latticeResults_complete
    (hc : composing.surface = convertElements tables composing.input)
    (hcount : (katakanaGraphemes unicode composing).length = composing.surface.length)
    {additionalEntries : List DictionaryEntry} {results : List RegisteredPath}
    (hbuild : buildLattice lookups order tables { additionalEntries } composing = some lattice)
    (hresults : latticeResults lookups context nBest order tables
      { additionalEntries, constraint } composing = some results) :
    ∀ path ∈ results, lattice.IsComplete composing path.nodes := by
  have h := buildLattice_surfaceLattice hcount hbuild
  unfold latticeResults at hresults
  split at hresults
  · obtain rfl := Option.some.inj hresults
    exact fun _ hin => absurd hin List.not_mem_nil
  · obtain ⟨_, hsame, hrun⟩ := Option.bind_eq_some_iff.mp hresults
    obtain rfl := Option.some.inj (hbuild.symm.trans hsame)
    obtain ⟨final, hfinal, rfl⟩ := Option.map_eq_some_iff.mp hrun
    have hsound : SearchSound composing lattice final := by
      refine Loop.foldlM_keeps (fun _ state => SearchSound composing lattice state) _ hfinal
        (searchSound_start h) ?_
      intro _ index _ state next _ hstate hindex
      obtain ⟨nodes, hnodes, hcolumn⟩ := Option.bind_eq_some_iff.mp hindex
      refine Loop.foldlM_keeps (fun _ state => SearchSound composing lattice state) nodes hcolumn
        hstate ?_
      intro _ node _ state next hsplit hstate hnext
      exact hstate.processNode hc h (nodesAt_has hnodes node (by simp [hsplit])) hnext
    exact hsound.results

end BeanKey.Lattice
