import BeanKey.Lattice.Allowed

/-! The search without typo correction is an exact search for the best paths that the constraint
lets through, where it treats the paths that meet alike: what it keeps at the end holds the best
complete ones. Without a constraint these are the best complete paths of the lattice. -/
namespace BeanKey.Lattice
open Input TopK Zenz
variable {unicode : UnicodeTable} {tables : InputTableRegistry} {order : HashOrder}
  {composing : ComposingText} {lookups : Lookups unicode} {context : ConversionContext}
  {nBest : Nat} {lattice : LatticeNodes} {done : Set LatticeNode}
  {constraint : Option PrefixConstraint}

/-- After the nodes of `done`: every node keeps its best leads, and the results keep the
best of the complete paths so far. -/
structure SearchInvariant (lookups : Lookups unicode) (context : ConversionContext) (nBest : Nat)
    (constraint : Option PrefixConstraint) (composing : ComposingText) (lattice : LatticeNodes)
    (done : Set LatticeNode) (state : SearchState) : Prop where
  top : ∀ node, lattice.Has node → IsTop Predecessor.total nBest
    (allowedLeads lookups context lattice constraint done node) (state.predecessors node.slot)
  falling : ∀ node, lattice.Has node →
    Falling Predecessor.total (state.predecessors node.slot)
  nodup : state.results.Nodup
  complete : ∀ path ∈ state.results,
    path ∈ acceptedPaths lookups context lattice constraint composing ∧
      ∃ node ∈ done, path.nodes.head? = some node
  covered : ∀ path ∈ acceptedPaths lookups context lattice constraint composing,
    ∀ node ∈ done, path.nodes.head? = some node →
      path ∈ state.results ∨ nBest ≤ countAbove RegisteredPath.total path.total state.results

theorem searchInvariant_start (h : SurfaceLattice composing lattice) (hn : 0 < nBest) :
    SearchInvariant lookups context nBest constraint composing lattice ∅
      ⟨startPredecessors, []⟩ := by
  have hleads : ∀ node, lattice.Has node →
      allowedLeads lookups context lattice constraint ∅ node =
        { lead | lead ∈ startPredecessors node.slot } := by
    intro node hnode
    obtain ⟨start, last, hslot, hrange, -⟩ := h.has_spec hnode
    have hslot' : node.slot = (.surface start, node.slot.2) := Prod.ext hslot rfl
    rw [hslot']
    ext lead
    cases start with
    | zero =>
      have hzero : node.range.startsAtZero = true := by rw [hrange]; rfl
      simp only [startPredecessors, List.mem_singleton, Set.mem_ofPred_eq]
      constructor
      · rintro ⟨⟨htotal, ⟨hnil, -⟩ | ⟨_, _, _, _, hin, _⟩⟩, -⟩
        · obtain ⟨nodes, total⟩ := lead
          obtain rfl : nodes = [] := hnil
          exact congrArg (Predecessor.mk []) htotal
        · exact absurd hin (Set.notMem_empty _)
      · rintro rfl
        exact ⟨⟨rfl, .inl ⟨rfl, hzero⟩⟩, trivial, fun hne => absurd rfl hne⟩
    | succ start =>
      have hlater : node.range.startsAtZero = false := by rw [hrange]; rfl
      simp only [startPredecessors, List.not_mem_nil, Set.mem_ofPred_eq, iff_false]
      rintro ⟨⟨-, ⟨-, hzero⟩ | ⟨_, _, _, _, hin, _⟩⟩, -⟩
      · rw [hlater] at hzero
        exact absurd hzero (by simp)
      · exact absurd hin (Set.notMem_empty _)
  have hstart : ∀ slot, startPredecessors slot = [⟨[], 0⟩] ∨ startPredecessors slot = [] := by
    intro slot
    unfold startPredecessors
    split
    · exact .inl rfl
    · exact .inl rfl
    · exact .inr rfl
  refine ⟨?_, ?_, List.nodup_nil, fun _ hin => absurd hin List.not_mem_nil,
    fun _ _ _ hin => absurd hin (Set.notMem_empty _)⟩
  · intro node hnode
    rw [hleads node hnode]
    refine isTop_self Predecessor.total ?_ ?_
    · show (startPredecessors node.slot).Nodup
      obtain hone | hnil := hstart node.slot
      · rw [hone]
        exact List.nodup_singleton _
      · rw [hnil]
        exact List.nodup_nil
    · show (startPredecessors node.slot).length ≤ nBest
      obtain hone | hnil := hstart node.slot
      · rw [hone]
        exact hn
      · rw [hnil]
        exact Nat.zero_le _
  · intro node _
    show Falling Predecessor.total (startPredecessors node.slot)
    obtain hone | hnil := hstart node.slot
    · rw [hone]
      exact List.pairwise_singleton _ _
    · rw [hnil]
      exact List.Pairwise.nil

theorem SearchInvariant.skip {state : SearchState}
    (hinv : SearchInvariant lookups context nBest constraint composing lattice done state)
    {node : LatticeNode} (hnode : lattice.Has node)
    (hbefore : ∀ last, lattice.Has last → last.range.endIndex = node.slot.1 → last ∈ done)
    (hnone : allowedLeads lookups context lattice constraint done node = ∅) :
    SearchInvariant lookups context nBest constraint composing lattice
      (insert node done) state := by
  have hpaths : allowedTo lookups context lattice constraint node = ∅ := by
    rw [← image_allowedLeads hnode hbefore, hnone, Set.image_empty]
    ext path
    exact ⟨fun h => h.1, fun h => absurd h (Set.notMem_empty _)⟩
  refine ⟨?_, hinv.falling, hinv.nodup, ?_, ?_⟩
  · intro next hnext
    rw [allowedLeads_insert, hpaths]
    simpa using hinv.top next hnext
  · intro path hpath
    obtain ⟨haccepted, last, hlast, hhead⟩ := hinv.complete path hpath
    exact ⟨haccepted, last, Set.mem_insert_of_mem node hlast, hhead⟩
  · intro path hpath last hlast hhead
    obtain rfl | hin := Set.mem_insert_iff.mp hlast
    · have hmem : path ∈ allowedTo lookups context lattice constraint last :=
        ⟨⟨hpath.1.1.1, hhead, hpath.1.2⟩, hpath.2.1⟩
      rw [hpaths] at hmem
      exact absurd hmem (Set.notMem_empty _)
    · exact hinv.covered path hpath last hin hhead

theorem SearchInvariant.completed (h : SurfaceLattice composing lattice) {state : SearchState}
    (hinv : SearchInvariant lookups context nBest constraint composing lattice done state)
    {node : LatticeNode} (hnode : lattice.Has node)
    (hbefore : ∀ last, lattice.Has last → last.range.endIndex = node.slot.1 → last ∈ done) :
    IsTop RegisteredPath.total nBest (allowedTo lookups context lattice constraint node)
      (((state.predecessors node.slot).map (completePath lookups context node)).filter
        (allowsPath constraint node.entry)) := by
  have htop := isTop_map_completePath lookups context node (hinv.top node hnode)
  have hfilter := htop.filter (allowsPath constraint node.entry)
    (.inr (allowsPath_alike h hnode))
  rwa [image_allowedLeads hnode hbefore] at hfilter

theorem SearchInvariant.finish (h : SurfaceLattice composing lattice)
    (halike : Interchangeable lookups context lattice constraint nBest) {state : SearchState}
    (hinv : SearchInvariant lookups context nBest constraint composing lattice done state)
    {node : LatticeNode} (hnode : lattice.Has node) (hnew : node ∉ done)
    {completed : List RegisteredPath}
    (htop : IsTop RegisteredPath.total nBest (allowedTo lookups context lattice constraint node)
      completed)
    (hend : node.range.endIndex = .surface composing.surface.length) :
    SearchInvariant lookups context nBest constraint composing lattice (insert node done)
      { state with
        results := state.results ++ completed.filter (allowsResult constraint node.entry) } := by
  have hkept := htop.filter (allowsResult constraint node.entry)
    ((halike node hnode).imp_right fun hsame path hpath path' hpath' =>
      (hsame path hpath path' hpath').2)
  refine ⟨?_, hinv.falling, ?_, ?_, ?_⟩
  · intro next hnext
    have hno : ¬node.range.endIndex = next.slot.1 := by
      obtain ⟨start, last, hslot, -, -, -, hlt⟩ := h.has_spec hnext
      rw [hend, hslot]
      exact fun heq => hlt.ne' (LatticeIndex.surface.inj heq)
    rw [allowedLeads_insert]
    simpa [hno] using hinv.top next hnext
  · refine List.nodup_append.mpr ⟨hinv.nodup, hkept.nodup, ?_⟩
    rintro path hpath path' hpath' rfl
    obtain ⟨-, last, hlast, hhead⟩ := hinv.complete path hpath
    obtain ⟨⟨⟨-, hhead', -⟩, -⟩, -⟩ := hkept.subset path hpath'
    obtain rfl : last = node := Option.some.inj (hhead.symm.trans hhead')
    exact hnew hlast
  · intro path hpath
    obtain hin | hin := List.mem_append.mp hpath
    · obtain ⟨haccepted, last, hlast, hhead⟩ := hinv.complete path hin
      exact ⟨haccepted, last, Set.mem_insert_of_mem node hlast, hhead⟩
    · obtain ⟨⟨⟨hpathTo, hhead, htotal⟩, hallowed⟩, hresult⟩ := hkept.subset path hin
      refine ⟨⟨⟨⟨hpathTo, ?_⟩, htotal⟩, hallowed, ?_⟩, node, Set.mem_insert node done, hhead⟩
      · obtain ⟨before, hnodes⟩ := List.head?_eq_some_iff.mp hhead
        exact ⟨node, before, hnodes, hend⟩
      · intro last hlast
        obtain rfl : node = last := Option.some.inj (hhead.symm.trans hlast)
        exact hresult
  · intro path hpath last hlast hhead
    have hmore : ∀ bound, countAbove RegisteredPath.total bound (state.results ++
        completed.filter (allowsResult constraint node.entry)) =
        countAbove RegisteredPath.total bound state.results +
          countAbove RegisteredPath.total bound
            (completed.filter (allowsResult constraint node.entry)) :=
      fun bound => List.countP_append
    simp only [hmore]
    obtain rfl | hin := Set.mem_insert_iff.mp hlast
    · have hmem : path ∈ { path | path ∈ allowedTo lookups context lattice constraint last ∧
          allowsResult constraint last.entry path = true } :=
        ⟨⟨⟨hpath.1.1.1, hhead, hpath.1.2⟩, hpath.2.1⟩, hpath.2.2 last hhead⟩
      exact (hkept.covered hmem).imp (List.mem_append_right _) fun hcount => by omega
    · exact (hinv.covered path hpath last hin hhead).imp (List.mem_append_left _)
        fun hcount => by omega

theorem SearchInvariant.advance {state : SearchState} (h : SurfaceLattice composing lattice)
    (halike : Interchangeable lookups context lattice constraint nBest)
    (hinv : SearchInvariant lookups context nBest constraint composing lattice done state)
    {node : LatticeNode} (hnode : lattice.Has node) (hnew : node ∉ done)
    {completed : List RegisteredPath}
    (htop : IsTop RegisteredPath.total nBest (allowedTo lookups context lattice constraint node)
      completed)
    (hend : node.range.endIndex ≠ .surface composing.surface.length)
    {nextNodes : List LatticeNode} (hnodup : (nextNodes.map LatticeNode.slot).Nodup)
    (hhas : ∀ next ∈ nextNodes, lattice.Has next)
    (hnext : ∀ next, lattice.Has next → (next ∈ nextNodes ↔ node.range.endIndex = next.slot.1)) :
    SearchInvariant lookups context nBest constraint composing lattice (insert node done)
      { state with
        predecessors := nextNodes.foldl (insertCompleted lookups nBest constraint node completed)
          state.predecessors } := by
  have hafter : ∀ next, lattice.Has next →
      IsTop Predecessor.total nBest
        (allowedLeads lookups context lattice constraint (insert node done) next)
        (nextNodes.foldl (insertCompleted lookups nBest constraint node completed)
          state.predecessors next.slot) ∧
      Falling Predecessor.total (nextNodes.foldl
        (insertCompleted lookups nBest constraint node completed) state.predecessors
          next.slot) := by
    intro next hhasNext
    by_cases hmem : next ∈ nextNodes
    · have hmeet := (hnext next hhasNext).mp hmem
      have hpassing := htop.filter (allowsNext constraint next.entry)
        ((halike node hnode).imp_right fun hsame path hpath path' hpath' =>
          (hsame path hpath path' hpath').1 next hhasNext)
      have hextended := isTop_map_extendTo lookups node next hpassing
      have hfresh : ∀ lead ∈ (completed.filter (allowsNext constraint next.entry)).map
          (extendTo lookups node next),
          lead ∉ allowedLeads lookups context lattice constraint done next := by
        rintro lead hlead ⟨⟨-, ⟨hnil, -⟩ | ⟨last, before, hnodes, -, hlast, -⟩⟩, -⟩
        · obtain ⟨path, hpath, rfl⟩ := List.mem_map.mp hlead
          obtain ⟨⟨⟨-, hhead, -⟩, -⟩, -⟩ := hpassing.subset path hpath
          rw [show path.nodes = [] from hnil] at hhead
          exact absurd hhead (by simp)
        · obtain ⟨path, hpath, rfl⟩ := List.mem_map.mp hlead
          obtain ⟨⟨⟨-, hhead, -⟩, -⟩, -⟩ := hpassing.subset path hpath
          rw [show path.nodes = last :: before from hnodes] at hhead
          obtain rfl : last = node := Option.some.inj hhead
          exact hnew hlast
      obtain ⟨hinserted, hfalling⟩ := (hinv.top next hhasNext).foldl_insertBounded _
        (hinv.falling next hhasNext) hextended.nodup hfresh
      have hunion : allowedLeads lookups context lattice constraint (insert node done) next =
          allowedLeads lookups context lattice constraint done next ∪
            extendTo lookups node next ''
              { path | path ∈ allowedTo lookups context lattice constraint node ∧
                allowsNext constraint next.entry path = true } := by
        rw [allowedLeads_insert]
        congr 1
        ext lead
        exact ⟨And.right, fun hin => ⟨hmeet, hin⟩⟩
      rw [foldl_insertCompleted_apply hnodup _ hmem, hunion]
      exact ⟨hinserted.absorb hextended, hfalling⟩
    · have hno : ¬node.range.endIndex = next.slot.1 := fun hmeet =>
        hmem ((hnext next hhasNext).mpr hmeet)
      have hslot : next.slot ∉ nextNodes.map LatticeNode.slot := by
        intro hin
        obtain ⟨other, hother, heq⟩ := List.mem_map.mp hin
        exact hmem (h.eq_of_slot (hhas other hother) hhasNext heq ▸ hother)
      have hsame : allowedLeads lookups context lattice constraint (insert node done) next =
          allowedLeads lookups context lattice constraint done next := by
        rw [allowedLeads_insert]
        simp [hno]
      rw [foldl_insertCompleted_other hslot, hsame]
      exact ⟨hinv.top next hhasNext, hinv.falling next hhasNext⟩
  refine ⟨fun next hhasNext => (hafter next hhasNext).1,
    fun next hhasNext => (hafter next hhasNext).2, hinv.nodup, ?_, ?_⟩
  · intro path hpath
    obtain ⟨haccepted, last, hlast, hhead⟩ := hinv.complete path hpath
    exact ⟨haccepted, last, Set.mem_insert_of_mem node hlast, hhead⟩
  · intro path hpath last hlast hhead
    obtain rfl | hin := Set.mem_insert_iff.mp hlast
    · obtain ⟨⟨⟨-, last', before, hnodes, hlastEnd⟩, -⟩, -⟩ := hpath
      rw [hnodes] at hhead
      obtain rfl : last' = last := Option.some.inj hhead
      exact absurd hlastEnd hend
    · exact hinv.covered path hpath last hin hhead

theorem SearchInvariant.processNode (order : HashOrder)
    (hc : composing.surface = convertElements tables composing.input)
    (h : SurfaceLattice composing lattice) (hn : 0 < nBest)
    (halike : Interchangeable lookups context lattice constraint nBest) {state : SearchState}
    (hinv : SearchInvariant lookups context nBest constraint composing lattice done state)
    {node : LatticeNode} (hnode : lattice.Has node) (hnew : node ∉ done)
    (hbefore : ∀ last, lattice.Has last → last.range.endIndex = node.slot.1 → last ∈ done) :
    ∃ next, processNode lookups context nBest (DualIndexMap.new order composing tables) constraint
        composing lattice state node = some next ∧
      SearchInvariant lookups context nBest constraint composing lattice (insert node done)
        next := by
  unfold Lattice.processNode
  by_cases hnil : state.predecessors node.slot = []
  · refine ⟨state, by simp only [hnil, if_true], hinv.skip hnode hbefore ?_⟩
    by_contra hne
    obtain ⟨lead, hlead⟩ := Set.nonempty_iff_ne_empty.mpr hne
    exact (hinv.top node hnode).ne_nil hn hlead hnil
  · have htop := hinv.completed h hnode hbefore
    simp only [if_neg hnil]
    by_cases hend : ((DualIndexMap.new order composing tables).dual node.range.endIndex).surface? =
        some composing.surface.length ∨
      ((DualIndexMap.new order composing tables).dual node.range.endIndex).input? =
        some composing.input.length
    · rw [if_pos hend]
      exact ⟨_, rfl, hinv.finish h halike hnode hnew htop ((h.ends_iff hc hnode).mp hend)⟩
    · obtain ⟨nodes, hnodes, hnodup, hhas, hnext⟩ := h.next_nodes hc hnode hend
      rw [if_neg hend, hnodes]
      exact ⟨_, rfl, hinv.advance h halike hnode hnew htop
        (fun he => hend ((h.ends_iff hc hnode).mpr he)) hnodup hhas hnext⟩

def nodesBefore (lattice : LatticeNodes) (start : Nat) : Set LatticeNode :=
  { node | lattice.Has node ∧ ∃ earlier < start, node.slot.1 = .surface earlier }

/-- Processing the nodes of one position, once those of all earlier positions are done. -/
theorem SearchInvariant.processColumn (order : HashOrder)
    (hc : composing.surface = convertElements tables composing.input)
    (h : SurfaceLattice composing lattice) (hn : 0 < nBest)
    (halike : Interchangeable lookups context lattice constraint nBest) {state : SearchState}
    {start : Nat}
    (hinv : SearchInvariant lookups context nBest constraint composing lattice
      (nodesBefore lattice start) state)
    {nodes : List LatticeNode} (hnodes : lattice.surfaceNodes[start]? = some nodes) :
    ∃ next, nodes.foldlM (Lattice.processNode lookups context nBest
        (DualIndexMap.new order composing tables) constraint composing lattice) state = some next ∧
      SearchInvariant lookups context nBest constraint composing lattice
        (nodesBefore lattice (start + 1)) next := by
  obtain ⟨-, hnodup, hcolumn⟩ := h.column start nodes hnodes
  have hmem : ∀ node ∈ nodes, lattice.Has node := fun node hnode =>
    h.has_iff.mpr ⟨start, nodes, hnodes, hnode⟩
  obtain ⟨final, hfinal, hinvFinal⟩ := Loop.foldlM_total _
    (fun processed state => SearchInvariant lookups context nBest constraint composing lattice
      (nodesBefore lattice start ∪ { node | node ∈ processed }) state) nodes state
    (by simpa using hinv) fun processed node rest state hsplit hinv => by
      have hnode : node ∈ nodes := by simp [hsplit]
      obtain ⟨next, hnext, hinvNext⟩ := hinv.processNode order hc h hn halike (hmem node hnode)
        (by
          rintro (⟨-, earlier, hlt, hslot⟩ | hin)
          · have hsame := (hcolumn node hnode).1.symm.trans hslot
            exact hlt.ne' (LatticeIndex.surface.inj hsame)
          · rw [hsplit, List.map_append, List.map_cons] at hnodup
            have hdisjoint := (List.nodup_append.mp hnodup).2.2
            exact hdisjoint _ (List.mem_map.mpr ⟨node, hin, rfl⟩) node.slot (by simp) rfl)
        (by
          intro last hlast hmeet
          obtain ⟨first, stop, hslot, hrange, hlt, -⟩ := h.has_spec hlast
          rw [hrange, LatticeRange.endIndex, (hcolumn node hnode).1] at hmeet
          exact .inl ⟨hlast, first, by rw [← LatticeIndex.surface.inj hmeet]; exact hlt, hslot⟩)
      refine ⟨next, hnext, ?_⟩
      have hdone : nodesBefore lattice start ∪ { other | other ∈ processed ++ [node] } =
          insert node (nodesBefore lattice start ∪ { other | other ∈ processed }) := by
        ext other
        simp only [Set.mem_union, Set.mem_insert_iff, Set.mem_ofPred_eq, List.mem_append,
          List.mem_singleton]
        tauto
      rwa [hdone]
  refine ⟨final, hfinal, ?_⟩
  have hdone : nodesBefore lattice (start + 1) =
      nodesBefore lattice start ∪ { node | node ∈ nodes } := by
    ext node
    constructor
    · rintro ⟨hnode, earlier, hlt, hslot⟩
      by_cases hhere : earlier = start
      · subst hhere
        exact .inr (h.mem_column hnode hslot hnodes)
      · exact .inl ⟨hnode, earlier, by omega, hslot⟩
    · rintro (⟨hnode, earlier, hlt, hslot⟩ | hin)
      · exact ⟨hnode, earlier, by omega, hslot⟩
      · exact ⟨hmem node hin, start, Nat.lt_succ_self _, (hcolumn node hin).1⟩
  rwa [hdone]

theorem searchInvariant_final (order : HashOrder)
    (hc : composing.surface = convertElements tables composing.input)
    (h : SurfaceLattice composing lattice) (hn : 0 < nBest)
    (halike : Interchangeable lookups context lattice constraint nBest) :
    ∃ final, ((DualIndexMap.new order composing tables).indices composing.input.length
        composing.surface.length).foldlM (processIndex lookups context nBest
          (DualIndexMap.new order composing tables) constraint composing lattice)
            ⟨startPredecessors, []⟩ = some final ∧
      SearchInvariant lookups context nBest constraint composing lattice
        { node | lattice.Has node } final := by
  obtain ⟨hvisited, -⟩ := DualIndexMap.indices_spec order hc
  obtain ⟨final, hfinal, hinv⟩ := Loop.foldlM_total (processIndex lookups context nBest
      (DualIndexMap.new order composing tables) constraint composing lattice)
    (fun visited state => SearchInvariant lookups context nBest constraint composing lattice
      (nodesBefore lattice (visited.filterMap DualIndex.surface?).length) state)
    ((DualIndexMap.new order composing tables).indices composing.input.length
      composing.surface.length) ⟨startPredecessors, []⟩
    (by
      have hnone : nodesBefore lattice 0 = ∅ := by
        ext node
        simp [nodesBefore]
      rw [List.filterMap_nil, List.length_nil, hnone]
      exact searchInvariant_start h hn)
    fun visited index rest state hsplit hinv => by
      have hmem : index ∈ (DualIndexMap.new order composing tables).indices
          composing.input.length composing.surface.length := by simp [hsplit]
      obtain ⟨-, hinput⟩ := mem_indices_within hc hmem
      rw [processIndex, h.nodesAt_eq hinput, List.filterMap_append]
      cases hindex : index.surface? with
      | none =>
        refine ⟨state, rfl, ?_⟩
        simpa [hindex] using hinv
      | some start =>
        have hall := congrArg (List.filterMap DualIndex.surface?) hsplit
        rw [hvisited, List.filterMap_append, List.filterMap_cons_some hindex] at hall
        obtain ⟨hbefore, hlt⟩ := DualIndexMap.range_eq_append_cons hall
        rw [hbefore, List.length_range] at hinv
        obtain ⟨nodes, hnodes⟩ := h.columns start hlt
        obtain ⟨next, hnext, hinvNext⟩ := hinv.processColumn order hc h hn halike hnodes
        refine ⟨next, by simp only [hnodes, Option.bind_some]; exact hnext, ?_⟩
        simpa [hbefore, hindex] using hinvNext
  refine ⟨final, hfinal, ?_⟩
  have hdone : nodesBefore lattice composing.surface.length = { node | lattice.Has node } := by
    ext node
    constructor
    · exact fun hin => hin.1
    · intro hnode
      obtain ⟨start, -, hslot, -, -, -, hlt⟩ := h.has_spec hnode
      exact ⟨hnode, start, hlt, hslot⟩
  rw [hvisited, List.length_range, hdone] at hinv
  exact hinv

/-! ### The search is exact -/

/-- What the search keeps: complete paths only, and among them the best `k` of all
complete paths, for every `k` up to `nBest`. -/
def ExactSearch (lookups : Lookups unicode) (context : ConversionContext) (nBest : Nat)
    (order : HashOrder) (tables : InputTableRegistry) (additionalEntries : List DictionaryEntry)
    (composing : ComposingText) : Prop :=
  ∃ lattice results,
    buildLattice lookups order tables { additionalEntries } composing = some lattice ∧
    latticeResults lookups context nBest order tables { additionalEntries } composing =
      some results ∧
    (∀ path ∈ results, path ∈ completePaths lookups context lattice composing) ∧
    ∀ k ≤ nBest, ∃ kept, List.Subperm kept results ∧
      IsTop RegisteredPath.total k (completePaths lookups context lattice composing) kept

/-- The search keeps the best of the complete paths that the constraint accepts. -/
theorem constrained_exact (hc : composing.surface = convertElements tables composing.input)
    (hcount : (katakanaGraphemes unicode composing).length = composing.surface.length)
    (hn : 0 < nBest) {additionalEntries : List DictionaryEntry}
    (hbuild : buildLattice lookups order tables { additionalEntries } composing = some lattice)
    (halike : Interchangeable lookups context lattice constraint nBest) :
    ∃ results,
      latticeResults lookups context nBest order tables { additionalEntries, constraint }
        composing = some results ∧
      (∀ path ∈ results, path ∈ acceptedPaths lookups context lattice constraint composing) ∧
      ∀ k ≤ nBest, ∃ kept, List.Subperm kept results ∧
        IsTop RegisteredPath.total k
          (acceptedPaths lookups context lattice constraint composing) kept := by
  have h := buildLattice_surfaceLattice hcount hbuild
  by_cases hsurface : composing.surface = []
  · have hnone : acceptedPaths lookups context lattice constraint composing = ∅ := by
      ext path
      simp only [Set.mem_empty_iff_false, iff_false]
      rintro ⟨⟨⟨hpath, -⟩, -⟩, -⟩
      obtain ⟨node, -, -, hnode⟩ := hpath.exists_last
      obtain ⟨start, -, -, -, -, -, hlt⟩ := h.has_spec hnode
      rw [hsurface] at hlt
      exact absurd hlt (Nat.not_lt_zero _)
    refine ⟨[], ?_, fun _ hin => absurd hin List.not_mem_nil, ?_⟩
    · rw [latticeResults, if_pos (.inr hsurface)]
    · intro k _
      refine ⟨[], List.nil_subperm, ?_⟩
      rw [hnone]
      exact ⟨List.nodup_nil, fun _ hin => absurd hin List.not_mem_nil, Nat.zero_le k,
        fun _ hin => absurd hin (Set.notMem_empty _)⟩
  · obtain ⟨final, hfinal, hinv⟩ : ∃ final, _ ∧ SearchInvariant lookups context nBest constraint
        composing lattice { node | lattice.Has node } final :=
      searchInvariant_final order hc h hn halike
    refine ⟨final.results, ?_, fun path hin => (hinv.complete path hin).1, ?_⟩
    · have hsame : buildLattice lookups order tables { additionalEntries, constraint } composing =
          some lattice := hbuild
      rw [latticeResults, if_neg (not_or.mpr ⟨hn.ne', hsurface⟩)]
      simp only [hsame, Option.bind_some, hfinal, Option.map_some]
    · intro k hk
      refine exists_isTop hinv.nodup (fun path hin => (hinv.complete path hin).1) ?_ hk
      intro path hpath
      obtain ⟨node, before, hnodes, hnode⟩ := hpath.1.1.1.exists_last
      exact hinv.covered path hpath node hnode (by rw [hnodes]; rfl)

theorem exactSearch (hc : composing.surface = convertElements tables composing.input)
    (hcount : (katakanaGraphemes unicode composing).length = composing.surface.length)
    (hn : 0 < nBest) (additionalEntries : List DictionaryEntry) :
    ExactSearch lookups context nBest order tables additionalEntries composing := by
  obtain ⟨lattice, hbuild, -⟩ : ∃ lattice,
      buildLattice lookups order tables { additionalEntries } composing = some lattice ∧
        LatticeWithin composing lattice := buildLattice_within hcount
  obtain ⟨results, hresults, hcomplete, hbest⟩ := constrained_exact hc hcount hn hbuild
    (interchangeable_none nBest : Interchangeable lookups context lattice none nBest)
  rw [acceptedPaths_none] at hcomplete hbest
  exact ⟨lattice, results, hbuild, hresults, hcomplete, hbest⟩

/-- On a text that has not drifted, every search is exact exactly when the joined surface
has as many graphemes as the surface has elements. -/
theorem search_exact_iff (unicode : UnicodeTable) (tables : InputTableRegistry)
    (composing : ComposingText)
    (hc : composing.surface = convertElements tables composing.input) :
    (∀ (lookups : Lookups unicode) (context : ConversionContext) (nBest : Nat) (order : HashOrder)
        (additionalEntries : List DictionaryEntry), 0 < nBest →
        ExactSearch lookups context nBest order tables additionalEntries composing) ↔
      (graphemes unicode composing.surfaceText).length = composing.surface.length := by
  rw [← katakanaGraphemes_length]
  constructor
  · intro hall
    by_contra hcount
    obtain ⟨lookups, hnone⟩ := exists_outside hc hcount
    obtain ⟨-, results, -, hresults, -⟩ := hall lookups {} 1 .identity [] Nat.one_pos
    exact absurd (hnone.symm.trans hresults) (by simp)
  · intro hcount lookups context nBest order additionalEntries hn
    exact exactSearch hc hcount hn additionalEntries

theorem search_exact_pair :
    pairText.surface = convertElements endingTables pairText.input ∧
      ∀ (lookups : Lookups .kana) (context : ConversionContext) (nBest : Nat) (order : HashOrder)
        (additionalEntries : List DictionaryEntry), 0 < nBest →
        ExactSearch lookups context nBest order endingTables additionalEntries pairText := by
  have hc : pairText.surface = convertElements endingTables pairText.input := by decide +kernel
  exact ⟨hc, (search_exact_iff .kana endingTables pairText hc).mpr (by decide +kernel)⟩

/-- The search through the kana with its sound mark has no result at all. -/
theorem search_not_exact_marked :
    ¬∀ (unicode : UnicodeTable) (tables : InputTableRegistry) (composing : ComposingText),
      ComposingText.Reachable unicode tables composing →
      ∀ (lookups : Lookups unicode) (context : ConversionContext) (nBest : Nat) (order : HashOrder)
        (additionalEntries : List DictionaryEntry), 0 < nBest →
        ExactSearch lookups context nBest order tables additionalEntries composing := by
  intro hall
  have hreach : ComposingText.Reachable .kana endingTables markedText :=
    .edit (.insertStr [Char.ofNat 0x3099] .direct) (.edit (.insertStr ['か'] .direct) .new trivial)
      trivial
  obtain ⟨-, results, -, hresults, -⟩ := hall .kana endingTables markedText hreach (.empty .kana) {}
    1 .identity [] Nat.one_pos
  rw [latticeResults_markedText] at hresults
  exact absurd hresults (by simp)

end BeanKey.Lattice
