import BeanKey.Lattice.Readings

/-! Two runs of a conversion whose hash maps hand their entries out in different orders, and when
they give the same candidates. -/
namespace BeanKey.Lattice
open Input Zenz Stable

/-! ### Chains with typo correction -/

def passesConstraint (constraint : Option PrefixConstraint) : List LatticeNode → Bool
  | [] => true
  | node :: before => allowsPath constraint node.entry ⟨node :: before, 0⟩

/-- A chain of nodes from the beginning of the text that the constraint lets through, the last one
first. A node follows another where it starts at the index of its end. -/
inductive LatticeNodes.IsChain (lattice : LatticeNodes) (map : DualIndexMap)
    (constraint : Option PrefixConstraint) : List LatticeNode → Prop
  | start {node : LatticeNode} : lattice.Has node →
      node.slot.1 = .surface 0 ∨ node.slot.1 = .input 0 → passesConstraint constraint [node] →
      lattice.IsChain map constraint [node]
  | step {node last : LatticeNode} {before : List LatticeNode} : lattice.Has node →
      node.slot.1 ∈ (map.dual last.range.endIndex).starts →
      passesConstraint constraint (node :: last :: before) →
      lattice.IsChain map constraint (last :: before) →
      lattice.IsChain map constraint (node :: last :: before)

section chains
variable [Rounding] {unicode : UnicodeTable} (lookups : Lookups unicode)
  (meaningCost : Nat → Nat → ℚ) (context : ConversionContext)

def candidateValue (path : RegisteredPath) : ℚ :=
  (makeCandidate lookups meaningCost context path).value

def Traced (lattice : LatticeNodes) (map : DualIndexMap) (constraint : Option PrefixConstraint)
    (node : LatticeNode) (lead : Predecessor) : Prop :=
  lead = ⟨[], 0⟩ ∧ (node.slot.1 = .surface 0 ∨ node.slot.1 = .input 0) ∨
    ∃ last before, lattice.IsChain map constraint (last :: before) ∧
      node.slot.1 ∈ (map.dual last.range.endIndex).starts ∧
      lead = ⟨(last :: before).map LatticeNode.unplaced,
        leadTotal lookups context (last :: before) node⟩

end chains

section chains
variable [Rounding] {unicode : UnicodeTable} {lookups : Lookups unicode}
  {meaningCost : Nat → Nat → ℚ}
  {context : ConversionContext} {constraint : Option PrefixConstraint}
  {composing : ComposingText} {map : DualIndexMap} {lattice : LatticeNodes} {node : LatticeNode}
  {leads : List Predecessor}

theorem candidateValue_unplaced (nodes : List LatticeNode) (total : ℚ) :
    candidateValue lookups meaningCost context ⟨nodes.map LatticeNode.unplaced, total⟩ =
      candidateValue lookups meaningCost context ⟨nodes, 0⟩ :=
  congrArg Candidate.value (makeCandidate_unplaced ⟨nodes, total⟩)

theorem completedBy_traced (hnode : lattice.Has node)
    (hleads : ∀ lead ∈ leads, Traced lookups context lattice map constraint node lead)
    {path : RegisteredPath}
    (hpath : path ∈ completedBy lookups context constraint node.unplaced leads) :
    ∃ before, lattice.IsChain map constraint (node :: before) ∧
      path = ⟨(node :: before).map LatticeNode.unplaced,
        pathTotal lookups context (node :: before)⟩ := by
  obtain ⟨hmem, hallows⟩ := List.mem_filter.mp hpath
  obtain ⟨lead, hlead, rfl⟩ := List.mem_map.mp hmem
  have hpasses : ∀ before : List LatticeNode, lead.nodes = before.map LatticeNode.unplaced →
      passesConstraint constraint (node :: before) = true := by
    intro before hnodes
    rw [passesConstraint, ← hallows, allowsPath, allowsPath, completePath]
    dsimp only
    rw [hnodes, ← List.map_cons, pathBytes_unplaced]
    rfl
  rcases hleads lead hlead with ⟨rfl, hzero⟩ | ⟨last, before, hchain, hstart, rfl⟩
  · refine ⟨[], .start hnode hzero (hpasses [] rfl), ?_⟩
    rw [pathTotal_cons, leadTotal]
    rfl
  · refine ⟨last :: before, .step hnode hstart (hpasses _ rfl) hchain, ?_⟩
    rw [pathTotal_cons]
    rfl

theorem handedTo_traced (hnode : lattice.Has node)
    (hleads : ∀ lead ∈ leads, Traced lookups context lattice map constraint node lead)
    {after : LatticeNode} {lead : Predecessor}
    (hlead : lead ∈ handedTo lookups context constraint composing
      (map.dual node.range.endIndex) node.unplaced leads after.unplaced) :
    ∃ before, lattice.IsChain map constraint (node :: before) ∧
      ¬EndsText composing (map.dual node.range.endIndex) ∧
      after.slot.1 ∈ (map.dual node.range.endIndex).starts ∧
      lead = ⟨(node :: before).map LatticeNode.unplaced,
        leadTotal lookups context (node :: before) after⟩ := by
  rw [handedTo] at hlead
  split at hlead
  · exact absurd hlead List.not_mem_nil
  · next hnot =>
    rw [not_or, not_not] at hnot
    obtain ⟨path, hpath, rfl⟩ := List.mem_map.mp hlead
    obtain ⟨before, hchain, rfl⟩ := completedBy_traced hnode hleads (List.mem_of_mem_filter hpath)
    exact ⟨before, hchain, hnot.1, hnot.2, rfl⟩

theorem endedBy_traced (hnode : lattice.Has node)
    (hleads : ∀ lead ∈ leads, Traced lookups context lattice map constraint node lead)
    {path : RegisteredPath}
    (hpath : path ∈ endedBy lookups context constraint composing
      (map.dual node.range.endIndex) node.unplaced leads) :
    ∃ before, lattice.IsChain map constraint (node :: before) ∧
      EndsText composing (map.dual node.range.endIndex) ∧
      candidateValue lookups meaningCost context path =
        candidateValue lookups meaningCost context ⟨node :: before, 0⟩ := by
  rw [endedBy] at hpath
  split at hpath
  · next hend =>
    obtain ⟨before, hchain, rfl⟩ := completedBy_traced hnode hleads (List.mem_of_mem_filter hpath)
    exact ⟨before, hchain, hend, candidateValue_unplaced _ _⟩
  · exact absurd hpath List.not_mem_nil

end chains

/-! ### The condition -/

section condition
variable [Rounding] {unicode : UnicodeTable} (lookups : Lookups unicode)
  (meaningCost : Nat → Nat → ℚ)
  (context : ConversionContext) (tables : InputTableRegistry) (modifiers : ConversionModifiers)
  (composing : ComposingText)

/-- Chains that end with nodes of two different readings are told apart by their totals: at each
node both lead to, and as candidates. -/
def Untied (lattice : LatticeNodes) (start : Nat) (found found' : TypoPrefix) : Prop :=
  let map := DualIndexMap.new .identity composing tables
  ∀ node node' before before',
    node.unplaced ∈ prefixNodes lookups modifiers.additionalEntries start found →
    node'.unplaced ∈ prefixNodes lookups modifiers.additionalEntries start found' →
    lattice.IsChain map modifiers.constraint (node :: before) →
    lattice.IsChain map modifiers.constraint (node' :: before') →
    (EndsText composing (map.dual node.range.endIndex) →
      EndsText composing (map.dual node'.range.endIndex) →
      candidateValue lookups meaningCost context ⟨node :: before, 0⟩ ≠
        candidateValue lookups meaningCost context ⟨node' :: before', 0⟩) ∧
    ∀ after, lattice.Has after →
      ¬EndsText composing (map.dual node.range.endIndex) →
      ¬EndsText composing (map.dual node'.range.endIndex) →
      after.slot.1 ∈ (map.dual node.range.endIndex).starts →
      after.slot.1 ∈ (map.dual node'.range.endIndex).starts →
      leadTotal lookups context (node :: before) after ≠
        leadTotal lookups context (node' :: before') after

/-- Nothing in the conversion hangs on the order of a hash map: before the end of the text no
surface position is shared by input positions of which one is the end or has readings with entries,
and the readings of an input position are not tied. -/
structure SeedFree : Prop where
  shared : ∀ input input' surface, (input, surface) ∈ composing.inputToSurfaceMap tables →
    (input', surface) ∈ composing.inputToSurfaceMap tables → input ≠ input' →
    surface ≠ composing.surface.length →
      input < composing.input.length ∧ (modifiers.needTypoCorrection = true →
        ∀ found ∈ readings unicode tables composing.input input,
          prefixEntries lookups modifiers.additionalEntries input found = [])
  untied : modifiers.needTypoCorrection = true → ∀ lattice,
    buildLattice lookups .identity tables modifiers composing = some lattice →
    ∀ start < composing.input.length, ∀ found ∈ readings unicode tables composing.input start,
      ∀ found' ∈ readings unicode tables composing.input start, found ≠ found' →
        Untied lookups meaningCost context tables modifiers composing lattice start found found'

end condition

section runs
variable [Rounding] {unicode : UnicodeTable} {lookups : Lookups unicode}
  {meaningCost : Nat → Nat → ℚ}
  {context : ConversionContext} {tables : InputTableRegistry} {modifiers : ConversionModifiers}
  {composing : ComposingText} {order : HashOrder} {lattice : LatticeNodes} {nBest : Nat}

theorem exists_reading
    (hbuild : buildLattice lookups order tables modifiers composing = some lattice)
    {node : LatticeNode} (hnode : lattice.Has node) {start : Nat}
    (hstart : node.slot.1 = .input start) :
    modifiers.needTypoCorrection = true ∧
      ∃ found ∈ readings unicode tables composing.input start,
        prefixEntries lookups modifiers.additionalEntries start found ≠ [] := by
  have hplaced := buildLattice_placed hbuild
  obtain ⟨_, nodes, hnodes, hmem⟩ := LatticeNodes.has_iff.mp hnode
  rw [← (hplaced.spans _ nodes hnodes node hmem).1, hstart, LatticeNodes.column,
    buildLattice_input hbuild] at hnodes
  split at hnodes
  · obtain rfl := Option.some.inj hnodes
    split at hmem
    · next htypo =>
      obtain ⟨-, last, -, hentry⟩ := mem_placeNodes hmem
      obtain ⟨found, hfound, hin⟩ := List.mem_flatMap.mp hentry
      exact ⟨htypo, found, (readings_perm tables composing.input order start).mem_iff.mpr hfound,
        List.ne_nil_of_mem hin⟩
    · exact absurd hmem List.not_mem_nil
  · exact absurd hnodes (by simp)

section
variable (h : SeedFree lookups meaningCost context tables modifiers composing)
include h

/-- No node stands at an input position that shares its surface position. -/
theorem SeedFree.not_at_shared
    (hbuild : buildLattice lookups order tables modifiers composing = some lattice)
    {input input' surface : Nat} (hin : (input, surface) ∈ composing.inputToSurfaceMap tables)
    (hin' : (input', surface) ∈ composing.inputToSurfaceMap tables) (hne : input ≠ input')
    (hsurface : surface ≠ composing.surface.length) {node : LatticeNode}
    (hnode : lattice.Has node) : node.slot.1 ≠ .input input := by
  intro hstart
  obtain ⟨htypo, found, hfound, hentries⟩ := exists_reading hbuild hnode hstart
  exact hentries ((h.shared input input' surface hin hin' hne hsurface).2 htypo found hfound)

/-- The nodes of a column end at indices where no node of the column starts. -/
theorem SeedFree.apart
    (hbuild : buildLattice lookups order tables modifiers composing = some lattice)
    {index : DualIndex}
    (hindex : index ∈ (DualIndexMap.new order composing tables).indices composing.input.length
      composing.surface.length) {nodes : List LatticeNode}
    (hnodes : lattice.nodesAt index = some nodes) :
    Apart composing (DualIndexMap.new order composing tables) nodes := by
  have hplaced := buildLattice_placed hbuild
  intro node hnode other hother _ hstart
  obtain ⟨hhas, hhere⟩ := (hplaced.mem_nodesAt hnodes node).mp hnode
  obtain ⟨-, hthere⟩ := (hplaced.mem_nodesAt hnodes other).mp hother
  obtain ⟨first, last, hlt, ⟨hslot, hrange⟩ | ⟨hslot, hrange⟩⟩ := hplaced.has_spans hhas
  · rw [hrange] at hstart
    rw [hslot] at hhere
    rcases DualIndexMap.starts_dual_surface order last hstart with hsame | ⟨input, hsame, hinput⟩
    · -- the column holds the surface position `first` only
      rw [hsame] at hthere
      cases index with
      | input _ => simp [DualIndex.starts] at hhere
      | surface _ =>
        simp only [DualIndex.starts, List.mem_singleton, LatticeIndex.surface.injEq] at hhere hthere
        omega
      | both _ _ =>
        simp only [DualIndex.starts, List.mem_cons, LatticeIndex.surface.injEq, List.not_mem_nil,
          or_false, reduceCtorEq] at hhere hthere
        omega
    · rw [hsame] at hthere
      cases index with
      | input _ => simp [DualIndex.starts] at hhere
      | surface _ => simp [DualIndex.starts] at hthere
      | both _ _ =>
        simp only [DualIndex.starts, List.mem_cons, LatticeIndex.surface.injEq,
          LatticeIndex.input.injEq, List.not_mem_nil, or_false, false_or, reduceCtorEq]
            at hhere hthere
        subst hhere hthere
        obtain ⟨-, hpair⟩ := DualIndexMap.mem_indices order hindex rfl
        rcases hinput with ⟨hidentity, hfirst⟩ | ⟨hidentity, hfirst⟩
        · rcases hpair with ⟨-, hsecond⟩ | ⟨hnot, -⟩
          · omega
          · simp [hidentity] at hnot
        · rcases hpair with ⟨hyes, -⟩ | ⟨-, hsecond⟩
          · simp [hidentity] at hyes
          · have := inputToSurfaceMap_functional hfirst hsecond
            omega
  · rw [hrange] at hstart
    rw [hslot] at hhere
    rcases DualIndexMap.starts_dual_input order last hstart with hsame | ⟨surface, hsame, hsurface⟩
    · rw [hsame] at hthere
      cases index with
      | input _ =>
        simp only [DualIndex.starts, List.mem_singleton, LatticeIndex.input.injEq] at hhere hthere
        omega
      | surface _ => simp [DualIndex.starts] at hhere
      | both _ _ =>
        simp only [DualIndex.starts, List.mem_cons, LatticeIndex.input.injEq, List.not_mem_nil,
          or_false, false_or, reduceCtorEq] at hhere hthere
        omega
    · rw [hsame] at hthere
      cases index with
      | input _ => simp [DualIndex.starts] at hthere
      | surface _ => simp [DualIndex.starts] at hhere
      | both _ _ =>
        simp only [DualIndex.starts, List.mem_cons, LatticeIndex.surface.injEq,
          LatticeIndex.input.injEq, List.not_mem_nil, or_false, false_or, reduceCtorEq]
            at hhere hthere
        subst hhere hthere
        obtain ⟨hwithin, hpair⟩ := DualIndexMap.mem_indices order hindex rfl
        rcases hsurface with ⟨hidentity, hlast⟩ | ⟨hidentity, hlast⟩
        · rcases hpair with ⟨-, hsecond⟩ | ⟨hnot, -⟩
          · omega
          · simp [hidentity] at hnot
        · rcases hpair with ⟨hyes, -⟩ | ⟨-, hfirst⟩
          · simp [hidentity] at hyes
          · exact h.not_at_shared hbuild hfirst hlast hlt.ne hwithin.ne hhas hslot

/-- The index at an end may differ between two orders, but not in what the search does there. -/
theorem SeedFree.next_alike
    (hbuild : buildLattice lookups .identity tables modifiers composing = some lattice)
    (order : HashOrder) (last : LatticeIndex) :
    let next := (DualIndexMap.new .identity composing tables).dual last
    let next' := (DualIndexMap.new order composing tables).dual last
    (EndsText composing next ↔ EndsText composing next') ∧
      (¬EndsText composing next →
        (next.starts.all (fun start => start.isWithin composing) ↔
          next'.starts.all fun start => start.isWithin composing) ∧
        ∀ after, lattice.Has after →
          (after.slot.1 ∈ next.starts ↔ after.slot.1 ∈ next'.starts)) := by
  intro next next'
  cases last with
  | input index => exact ⟨Iff.rfl, fun _ => ⟨Iff.rfl, fun _ _ => Iff.rfl⟩⟩
  | surface index =>
    rcases DualIndexMap.dual_surface_or .identity order index with
      hsame | ⟨input, input', hne, hin, hin', hnext, hnext'⟩
    · rw [show next = next' from hsame]
      exact ⟨Iff.rfl, fun _ => ⟨Iff.rfl, fun _ _ => Iff.rfl⟩⟩
    · rw [show next = _ from hnext, show next' = _ from hnext']
      by_cases hend : index = composing.surface.length
      · have hboth : ∀ input, EndsText composing (.both input index) := fun _ =>
          .inl (by rw [hend]; rfl)
        exact ⟨iff_of_true (hboth _) (hboth _), fun hnot => absurd (hboth _) hnot⟩
      · have hlt := (h.shared input input' index hin hin' hne hend).1
        have hlt' := (h.shared input' input index hin' hin hne.symm hend).1
        have hnot : ∀ input < composing.input.length, ¬EndsText composing (.both input index) := by
          rintro input hlt (hsurface | hinput)
          · exact hend (Option.some.inj hsurface)
          · exact absurd (Option.some.inj hinput) hlt.ne
        refine ⟨iff_of_false (hnot _ hlt) (hnot _ hlt'), fun _ => ⟨?_, fun after hafter => ?_⟩⟩
        · simp [DualIndex.starts, LatticeIndex.isWithin, hlt, hlt']
        · have hout := h.not_at_shared hbuild hin hin' hne hend hafter
          have hout' := h.not_at_shared hbuild hin' hin hne.symm hend hafter
          simp [DualIndex.starts, hout, hout']

theorem SeedFree.stays_alike
    (hbuild : buildLattice lookups .identity tables modifiers composing = some lattice)
    (order : HashOrder) (last : LatticeIndex) (leads : List Predecessor) :
    Stays composing ((DualIndexMap.new .identity composing tables).dual last) leads ↔
      Stays composing ((DualIndexMap.new order composing tables).dual last) leads := by
  obtain ⟨hends, hothers⟩ := h.next_alike hbuild order last
  by_cases hend : EndsText composing ((DualIndexMap.new .identity composing tables).dual last)
  · exact iff_of_true (.inr (.inl hend)) (.inr (.inl (hends.mp hend)))
  · exact or_congr Iff.rfl (or_congr hends (hothers hend).1)

theorem SeedFree.handedTo_alike
    (hbuild : buildLattice lookups .identity tables modifiers composing = some lattice)
    (order : HashOrder) (last : LatticeIndex) (node : LatticeNode) (leads : List Predecessor)
    {after : LatticeNode} (hafter : lattice.Has after) :
    handedTo lookups context modifiers.constraint composing
        ((DualIndexMap.new .identity composing tables).dual last) node leads after.unplaced =
      handedTo lookups context modifiers.constraint composing
        ((DualIndexMap.new order composing tables).dual last) node leads after.unplaced := by
  obtain ⟨hends, hothers⟩ := h.next_alike hbuild order last
  refine if_congr ?_ rfl rfl
  by_cases hend : EndsText composing ((DualIndexMap.new .identity composing tables).dual last)
  · exact iff_of_true (.inl hend) (.inl (hends.mp hend))
  · exact or_congr hends ((hothers hend).2 after hafter).not

theorem SeedFree.endedBy_alike
    (hbuild : buildLattice lookups .identity tables modifiers composing = some lattice)
    (order : HashOrder) (last : LatticeIndex) (node : LatticeNode) (leads : List Predecessor) :
    endedBy lookups context modifiers.constraint composing
        ((DualIndexMap.new .identity composing tables).dual last) node leads =
      endedBy lookups context modifiers.constraint composing
        ((DualIndexMap.new order composing tables).dual last) node leads :=
  if_congr (h.next_alike hbuild order last).1 rfl rfl

end

/-- Two states that go on in the same way; the first one is of the run that knows no order. -/
structure RunsAgree (lookups : Lookups unicode) (meaningCost : Nat → Nat → ℚ)
    (context : ConversionContext) (nBest : Nat) (constraint : Option PrefixConstraint)
    (map : DualIndexMap) (lattice : LatticeNodes) (state state' : ColumnState) : Prop where
  leads : ∀ node, lattice.Has node → state.leads node.unplaced = state'.leads node.unplaced
  results : Alike (candidateValue lookups meaningCost context) state.results state'.results
  ranked : state.Ranked nBest
  traced : ∀ node, lattice.Has node → ∀ lead ∈ state.leads node.unplaced,
    Traced lookups context lattice map constraint node lead

theorem runsAgree_start (hn : 0 < nBest) (lattice : LatticeNodes) (map : DualIndexMap) :
    RunsAgree lookups meaningCost context nBest modifiers.constraint map lattice .start .start := by
  refine ⟨fun _ _ => rfl, .refl _, ColumnState.start_ranked hn, ?_⟩
  intro node _ lead hlead
  dsimp only [ColumnState.start, LatticeNode.unplaced] at hlead
  obtain ⟨⟨start, place⟩, entry, range⟩ := node
  rcases start with (_ | start) | (_ | start)
  · exact .inl ⟨List.mem_singleton.mp hlead, .inr rfl⟩
  · exact absurd hlead List.not_mem_nil
  · exact .inl ⟨List.mem_singleton.mp hlead, .inl rfl⟩
  · exact absurd hlead List.not_mem_nil

/-- What the nodes of a column give is alike in both orders, where two readings are never tied. -/
theorem alike_blocks {entries : List DictionaryEntry} {nodes fixed : List LatticeNode}
    {found found' : List TypoPrefix} {start : Nat} (hperm : found.Perm found')
    (hnodes : nodes.map LatticeNode.unplaced =
      fixed ++ found.flatMap (prefixNodes lookups entries start))
    {γ : Type} {score : γ → ℚ} {f : LatticeNode → List γ}
    (hapart : ∀ reading ∈ found, ∀ reading' ∈ found, reading ≠ reading' →
      ∀ node ∈ nodes, ∀ node' ∈ nodes,
        node.unplaced ∈ prefixNodes lookups entries start reading →
        node'.unplaced ∈ prefixNodes lookups entries start reading' →
        ∀ x ∈ f node.unplaced, ∀ y ∈ f node'.unplaced, score x ≠ score y) :
    Alike score ((nodes.map LatticeNode.unplaced).flatMap f)
      ((fixed ++ found'.flatMap (prefixNodes lookups entries start)).flatMap f) := by
  have hplace : ∀ reading ∈ found, ∀ node ∈ prefixNodes lookups entries start reading,
      ∃ placed ∈ nodes, placed.unplaced = node := by
    intro reading hreading node hnode
    have hin : node ∈ nodes.map LatticeNode.unplaced :=
      hnodes ▸ List.mem_append_right _ (List.mem_flatMap.mpr ⟨reading, hreading, hnode⟩)
    exact List.mem_map.mp hin
  rw [hnodes, List.flatMap_append, List.flatMap_append, List.flatMap_assoc, List.flatMap_assoc]
  refine (Alike.refl _).append (alike_flatMap hperm ?_)
  intro reading hreading reading' hreading' hne x hx y hy
  obtain ⟨_, hnode, hx⟩ := List.mem_flatMap.mp hx
  obtain ⟨_, hnode', hy⟩ := List.mem_flatMap.mp hy
  obtain ⟨node, hin, rfl⟩ := hplace reading hreading _ hnode
  obtain ⟨node', hin', rfl⟩ := hplace reading' hreading' _ hnode'
  exact hapart reading hreading reading' hreading' hne node hin node' hin' hnode hnode' x hx y hy

theorem RunsAgree.column (h : SeedFree lookups meaningCost context tables modifiers composing)
    (hbuild : buildLattice lookups .identity tables modifiers composing = some lattice)
    {state state' : ColumnState}
    (hagree : RunsAgree lookups meaningCost context nBest modifiers.constraint
      (.new .identity composing tables) lattice state state')
    {nodes : List LatticeNode} (hhas : ∀ node ∈ nodes, lattice.Has node) {fixed : List LatticeNode}
    {found found' : List TypoPrefix} {start : Nat} (hperm : found.Perm found')
    (hfound : ∀ reading ∈ found, modifiers.needTypoCorrection = true ∧
      start < composing.input.length ∧ reading ∈ readings unicode tables composing.input start)
    (hnodes : nodes.map LatticeNode.unplaced = fixed ++
      found.flatMap (prefixNodes lookups modifiers.additionalEntries start)) :
    Option.Rel (RunsAgree lookups meaningCost context nBest modifiers.constraint
        (.new .identity composing tables) lattice)
      (searchColumn lookups context nBest modifiers.constraint composing
        (fun node => (DualIndexMap.new .identity composing tables).dual node.range.endIndex) state
        (nodes.map LatticeNode.unplaced))
      (searchColumn lookups context nBest modifiers.constraint composing
        (fun node => (DualIndexMap.new order composing tables).dual node.range.endIndex) state'
        (fixed ++ found'.flatMap (prefixNodes lookups modifiers.additionalEntries start))) := by
  have hmem : ∀ node, node ∈ fixed ++
      found'.flatMap (prefixNodes lookups modifiers.additionalEntries start) ↔
        node ∈ nodes.map LatticeNode.unplaced := by
    intro node
    rw [hnodes, List.mem_append, List.mem_append, (hperm.flatMap_right _).mem_iff]
  have hleads : ∀ node ∈ nodes.map LatticeNode.unplaced, state.leads node = state'.leads node :=
    List.forall_mem_map.mpr fun node hnode => hagree.leads node (hhas node hnode)
  -- the two runs do the same at one node
  have hstays : ∀ node ∈ nodes.map LatticeNode.unplaced,
      Stays composing ((DualIndexMap.new .identity composing tables).dual node.range.endIndex)
          (state.leads node) ↔
        Stays composing ((DualIndexMap.new order composing tables).dual node.range.endIndex)
          (state'.leads node) := by
    intro node hnode
    rw [hleads node hnode]
    exact h.stays_alike hbuild order _ _
  have hhanded : ∀ after, lattice.Has after → ∀ node ∈ nodes.map LatticeNode.unplaced,
      handedTo lookups context modifiers.constraint composing
          ((DualIndexMap.new .identity composing tables).dual node.range.endIndex) node
          (state.leads node) after.unplaced =
        handedTo lookups context modifiers.constraint composing
          ((DualIndexMap.new order composing tables).dual node.range.endIndex) node
          (state'.leads node) after.unplaced := by
    intro after hafter node hnode
    rw [hleads node hnode]
    exact h.handedTo_alike hbuild order _ _ _ hafter
  have hended : ∀ node ∈ nodes.map LatticeNode.unplaced,
      endedBy lookups context modifiers.constraint composing
          ((DualIndexMap.new .identity composing tables).dual node.range.endIndex) node
          (state.leads node) =
        endedBy lookups context modifiers.constraint composing
          ((DualIndexMap.new order composing tables).dual node.range.endIndex) node
          (state'.leads node) := by
    intro node hnode
    rw [hleads node hnode]
    exact h.endedBy_alike hbuild order _ _ _
  have hcongr : ∀ {γ : Type} {f g : LatticeNode → List γ},
      (∀ node ∈ nodes.map LatticeNode.unplaced, f node = g node) →
        (fixed ++ found'.flatMap (prefixNodes lookups modifiers.additionalEntries start)).flatMap
          g =
          (fixed ++ found'.flatMap (prefixNodes lookups modifiers.additionalEntries start)).flatMap
            f :=
    fun hsame => List.flatMap_congr fun node hnode => (hsame node ((hmem node).mp hnode)).symm
  by_cases hall : ∀ node ∈ nodes.map LatticeNode.unplaced, Stays composing
      ((DualIndexMap.new .identity composing tables).dual node.range.endIndex) (state.leads node)
  · have hall' : ∀ node ∈ fixed ++
        found'.flatMap (prefixNodes lookups modifiers.additionalEntries start), Stays composing
          ((DualIndexMap.new order composing tables).dual node.range.endIndex)
            (state'.leads node) := by
      intro node hnode
      have hin := (hmem node).mp hnode
      exact (hstays node hin).mp (hall node hin)
    rw [searchColumn, searchColumn, if_pos hall, if_pos hall']
    refine .some ⟨fun after hafter => ?_, ?_, ?_, ?_⟩
    · dsimp only
      rw [hcongr (hhanded after hafter), ← hagree.leads after hafter]
      refine Alike.foldl_insertBounded_eq (alike_blocks hperm hnodes ?_) (hagree.ranked _).1
        (hagree.ranked _).2
      intro reading hreading reading' hreading' hne node hin node' hin' hnode hnode' x hx y hy
      obtain ⟨before, hchain, hend, hstart, rfl⟩ :=
        handedTo_traced (hhas node hin) (hagree.traced node (hhas node hin)) hx
      obtain ⟨before', hchain', hend', hstart', rfl⟩ :=
        handedTo_traced (hhas node' hin') (hagree.traced node' (hhas node' hin')) hy
      obtain ⟨htypo, hlt, hread⟩ := hfound reading hreading
      exact (h.untied htypo lattice hbuild start hlt reading hread reading'
        (hfound reading' hreading').2.2 hne node node' before before' hnode hnode' hchain
          hchain').2 after hafter hend hend' hstart hstart'
    · dsimp only
      rw [hcongr hended]
      refine hagree.results.append (alike_blocks hperm hnodes ?_)
      intro reading hreading reading' hreading' hne node hin node' hin' hnode hnode' x hx y hy
      obtain ⟨before, hchain, hend, hvalue⟩ :=
        @endedBy_traced _ _ _ meaningCost _ _ _ _ _ _ _ (hhas node hin)
          (hagree.traced node (hhas node hin)) _ hx
      obtain ⟨before', hchain', hend', hvalue'⟩ :=
        @endedBy_traced _ _ _ meaningCost _ _ _ _ _ _ _ (hhas node' hin')
          (hagree.traced node' (hhas node' hin')) _ hy
      obtain ⟨htypo, hlt, hread⟩ := hfound reading hreading
      rw [hvalue, hvalue']
      exact (h.untied htypo lattice hbuild start hlt reading hread reading'
        (hfound reading' hreading').2.2 hne node node' before before' hnode hnode' hchain
          hchain').1 hend hend'
    · exact fun node => foldl_insertBounded_falling (hagree.ranked node).1 (hagree.ranked node).2 _
    · intro after hafter lead hlead
      cases TopK.mem_foldl_insertBounded hlead with
      | inl hold => exact hagree.traced after hafter lead hold
      | inr hnew =>
        obtain ⟨_, hnode, hhand⟩ := List.mem_flatMap.mp hnew
        obtain ⟨node, hin, rfl⟩ := List.mem_map.mp hnode
        obtain ⟨before, hchain, -, hstart, rfl⟩ :=
          handedTo_traced (hhas node hin) (hagree.traced node (hhas node hin)) hhand
        exact .inr ⟨node, before, hchain, hstart, rfl⟩
  · have hall' : ¬∀ node ∈ fixed ++
        found'.flatMap (prefixNodes lookups modifiers.additionalEntries start), Stays composing
          ((DualIndexMap.new order composing tables).dual node.range.endIndex)
            (state'.leads node) := by
      intro hall'
      exact hall fun node hnode => (hstays node hnode).mpr (hall' node ((hmem node).mpr hnode))
    rw [searchColumn, searchColumn, if_neg hall, if_neg hall']
    exact .none

theorem SeedFree.columns_agree (h : SeedFree lookups meaningCost context tables modifiers composing)
    (hn : 0 < nBest) {lattice' : LatticeNodes}
    (hbuild : buildLattice lookups .identity tables modifiers composing = some lattice)
    (hbuild' : buildLattice lookups order tables modifiers composing = some lattice')
    (indices : List DualIndex) :
    Option.Rel (RunsAgree lookups meaningCost context nBest modifiers.constraint
        (.new .identity composing tables) lattice)
      (searchColumns lookups context nBest modifiers.constraint composing
        (fun node => (DualIndexMap.new .identity composing tables).dual node.range.endIndex)
        lattice.columnAt indices)
      (searchColumns lookups context nBest modifiers.constraint composing
        (fun node => (DualIndexMap.new order composing tables).dual node.range.endIndex)
        lattice'.columnAt indices) := by
  have hplaced := buildLattice_placed hbuild
  refine Loop.foldlM_rel indices (runsAgree_start hn lattice _)
    fun index _ state state' hstate => ?_
  obtain ⟨hsome, hblocks⟩ := nodesAt_blocks hbuild hbuild' index
  rw [LatticeNodes.columnAt, LatticeNodes.columnAt]
  cases hnodes : lattice.nodesAt index with
  | none =>
    have hnone : lattice'.nodesAt index = none := by simpa [hnodes] using hsome.symm
    rw [hnone]
    exact .none
  | some nodes =>
    obtain ⟨nodes', hnodes'⟩ := Option.isSome_iff_exists.mp (by rw [← hsome, hnodes]; rfl)
    obtain ⟨fixed, hfixed, hfixed'⟩ := hblocks nodes nodes' hnodes hnodes'
    rw [hnodes', Option.map_some, Option.map_some, Option.bind_some, Option.bind_some, hfixed']
    refine RunsAgree.column h hbuild hstate
      (fun node hnode => ((hplaced.mem_nodesAt hnodes node).mp hnode).1)
      (readingsAt_perm order index) (fun reading hreading => ?_) hfixed
    rw [readingsAt] at hreading
    cases hinput : index.input? with
    | none => simp [hinput] at hreading
    | some start =>
      rw [hinput] at hreading
      dsimp only at hreading
      split at hreading
      · next htypo =>
        have hwithin := hplaced.nodesAt_isSome index
        rw [hnodes] at hwithin
        have hstart : LatticeIndex.input start ∈ index.starts := by
          cases index <;> simp_all [DualIndex.starts, DualIndex.input?]
        have hlt := List.all_eq_true.mp hwithin.symm _ hstart
        exact ⟨htypo, by simpa [LatticeIndex.isWithin] using hlt, hreading⟩
      · exact absurd hreading List.not_mem_nil

/-- The candidates of two states whose results differ only in the order of untied ones. -/
theorem sortByValue_alike {results results' : List RegisteredPath}
    (h : Alike (candidateValue lookups meaningCost context)
      (results.map RegisteredPath.unplaced) (results'.map RegisteredPath.unplaced)) :
    sortByValue (results.map (makeCandidate lookups meaningCost context)) =
      sortByValue (results'.map (makeCandidate lookups meaningCost context)) := by
  have hmap : ∀ results : List RegisteredPath,
      (results.map RegisteredPath.unplaced).map (makeCandidate lookups meaningCost context) =
        results.map (makeCandidate lookups meaningCost context) := by
    intro results
    rw [List.map_map]
    exact List.map_congr_left fun path _ => makeCandidate_unplaced path
  have hcandidates : Alike Candidate.value
      ((results.map RegisteredPath.unplaced).map (makeCandidate lookups meaningCost context))
      ((results'.map RegisteredPath.unplaced).map (makeCandidate lookups meaningCost context)) :=
    h.map fun _ => rfl
  rw [hmap, hmap] at hcandidates
  exact hcandidates.sortFalling_eq

/-- Every order gives the candidates of the order the entries were found in. -/
theorem SeedFree.convert_identity
    (h : SeedFree lookups meaningCost context tables modifiers composing) (order : HashOrder) :
    convert lookups meaningCost context nBest order tables modifiers composing =
      convert lookups meaningCost context nBest .identity tables modifiers composing := by
  rw [convert, convert, latticeResults, latticeResults]
  by_cases hempty : nBest = 0 ∨ composing.surface = []
  · rw [if_pos hempty, if_pos hempty]
  rw [if_neg hempty, if_neg hempty]
  have hn : 0 < nBest := Nat.pos_of_ne_zero (not_or.mp hempty).1
  cases hbuild : buildLattice lookups .identity tables modifiers composing with
  | none =>
    have hnone : buildLattice lookups order tables modifiers composing = none := by
      rw [buildLattice, Option.map_eq_none_iff] at hbuild ⊢
      exact hbuild
    simp only [hnone, Option.bind_none]
  | some lattice =>
    obtain ⟨lattice', hbuild'⟩ : ∃ lattice',
        buildLattice lookups order tables modifiers composing = some lattice' := by
      rw [buildLattice, Option.map_eq_some_iff] at hbuild
      obtain ⟨surfaceNodes, hsurface, -⟩ := hbuild
      rw [buildLattice, hsurface]
      exact ⟨_, rfl⟩
    have hplaced := buildLattice_placed hbuild
    have hplaced' := buildLattice_placed hbuild'
    simp only [hbuild', Option.bind_some]
    rw [DualIndexMap.indices_eq order .identity]
    have hcolumns := @processIndex_columns _ lookups context nBest modifiers.constraint composing
      (.new .identity composing tables) lattice _ hn hplaced _
      (fun index hindex nodes hnodes => h.apart hbuild hindex hnodes)
    have hcolumns' := @processIndex_columns _ lookups context nBest modifiers.constraint composing
      (.new order composing tables) lattice' _ hn hplaced' _
      (fun index hindex nodes hnodes => h.apart hbuild' hindex hnodes)
    rw [DualIndexMap.indices_eq order .identity] at hcolumns'
    have hjoined := Loop.rel_join hcolumns hcolumns' (h.columns_agree hn hbuild hbuild' _)
    generalize List.foldlM (processIndex lookups context nBest (.new .identity composing tables)
      modifiers.constraint composing lattice) _ _ = final at hjoined ⊢
    generalize List.foldlM (processIndex lookups context nBest (.new order composing tables)
      modifiers.constraint composing lattice') _ _ = final' at hjoined ⊢
    cases hjoined with
    | none => rfl
    | some hstates =>
      obtain ⟨columns, columns', ⟨hshows, -⟩, ⟨hshows', -⟩, hagree⟩ := hstates
      have hresults := hagree.results
      rw [← hshows.results, ← hshows'.results] at hresults
      rw [Option.map_some, Option.map_some, Option.map_some, Option.map_some,
        sortByValue_alike hresults]

/-- Without typo correction nothing hangs on the order, on every text that has not drifted. -/
theorem seedFree_of_conversion (hc : composing.surface = convertElements tables composing.input)
    (htypo : modifiers.needTypoCorrection = false) :
    SeedFree lookups meaningCost context tables modifiers composing := by
  have hwithin := mapWithin hc
  refine ⟨fun input input' surface hin _ _ hend => ⟨?_, ?_⟩, ?_⟩
  · refine lt_of_le_of_ne (hwithin.input_le _ hin) fun hlast => ?_
    exact hend (hwithin.last _ hin hlast)
  · simp [htypo]
  · simp [htypo]

/-- Where nothing hangs on the order of a hash map, every order gives the same candidates, however
the scores are rounded; so it is for every text that has not drifted, without typo correction. -/
theorem convert_seed_free (order order' : HashOrder) :
    (SeedFree lookups meaningCost context tables modifiers composing →
      convert lookups meaningCost context nBest order tables modifiers composing =
        convert lookups meaningCost context nBest order' tables modifiers composing) ∧
    (composing.surface = convertElements tables composing.input →
      modifiers.needTypoCorrection = false →
      convert lookups meaningCost context nBest order tables modifiers composing =
        convert lookups meaningCost context nBest order' tables modifiers composing) := by
  have hsame : SeedFree lookups meaningCost context tables modifiers composing →
      convert lookups meaningCost context nBest order tables modifiers composing =
        convert lookups meaningCost context nBest order' tables modifiers composing :=
    fun h => (h.convert_identity order).trans (h.convert_identity order').symm
  exact ⟨hsame, fun hc htypo => hsame (seedFree_of_conversion hc htypo)⟩

theorem convert_of_falling {results : List RegisteredPath}
    (hresults : latticeResults lookups context nBest order tables modifiers composing =
      some results)
    (hfalling : (results.map (makeCandidate lookups meaningCost context)).Pairwise
      fun left right => right.value ≤ left.value)
    (hkept : (((results.map (makeCandidate lookups meaningCost context)).filter fun candidate =>
      candidate.text ≠ []).foldl insertUnique []).Pairwise
        fun left right => right.value ≤ left.value) :
    convert lookups meaningCost context nBest order tables modifiers composing =
      some (((results.map (makeCandidate lookups meaningCost context)).filter fun candidate =>
        candidate.text ≠ []).foldl insertUnique []) := by
  have hsort : ∀ {candidates : List Candidate},
      candidates.Pairwise (fun left right => right.value ≤ left.value) →
        sortByValue candidates = candidates :=
    fun h => List.mergeSort_of_pairwise (h.imp fun hle => decide_eq_true hle)
  rw [convert, hresults, Option.map_some, hsort hfalling, uniqueCandidates, hsort hkept]

end runs

/-! ### Tied readings -/

/-- Nothing stands before a node at the beginning of the input, where no later position is mapped to
the beginning. -/
theorem LatticeNodes.IsChain.before_eq_nil {tables : InputTableRegistry} {composing : ComposingText}
    {order : HashOrder} {lattice : LatticeNodes} {constraint : Option PrefixConstraint}
    (hplaced : lattice.Placed composing)
    (hmap : ∀ surface, (0, surface) ∈ composing.inputToSurfaceMap tables → surface = 0)
    {node : LatticeNode} {before : List LatticeNode}
    (h : lattice.IsChain (.new order composing tables) constraint (node :: before))
    (hnode : node.slot.1 = .input 0) : before = [] := by
  cases h with
  | start => rfl
  | @step _ last before _ hstart _ hchain =>
    have hlast : lattice.Has last := by cases hchain <;> assumption
    obtain ⟨first, after, hlt, ⟨-, hrange⟩ | ⟨-, hrange⟩⟩ := hplaced.has_spans hlast
    · rw [hnode, hrange] at hstart
      rcases DualIndexMap.starts_dual_surface order after hstart with
        hsame | ⟨input, hsame, ⟨-, rfl⟩ | ⟨-, hin⟩⟩
      · exact absurd hsame (by simp)
      · exact absurd (LatticeIndex.input.inj hsame) (by omega)
      · obtain rfl := LatticeIndex.input.inj hsame
        exact absurd (hmap after hin) (by omega)
    · rw [hnode, hrange] at hstart
      rcases DualIndexMap.starts_dual_input order after hstart with hsame | ⟨surface, hsame, -⟩
      · exact absurd (LatticeIndex.input.inj hsame) (by omega)
      · exact absurd hsame (by simp)

def HashOrder.reversed : HashOrder := ⟨fun _ => List.reverse, fun _ => List.reverse_perm⟩

/-- A word for each of the two readings that は may have been mistyped from. -/
def twoReadings (first second : ℚ) : Lookups .kana :=
  let entry (word : Text) (ruby : Text) (baseValue : ℚ) : DictionaryEntry :=
    { word, ruby, leftId := 0, rightId := 0, meaningId := 500, baseValue }
  { Lookups.empty .kana with
    exactMatch := fun ruby =>
      if ruby = ['バ'] then [entry ['婆'] ruby first]
      else if ruby = ['パ'] then [entry ['派'] ruby second]
      else [] }

def haText : ComposingText := ComposingText.new.insertStr .kana endingTables ['は'] .direct

def hakaText : ComposingText := ComposingText.new.insertStr .kana endingTables ['は', 'か'] .direct

section single
-- the scores of the source are of single precision
attribute [local instance] Rounding.binary32

theorem convert_haka :
    convert (twoReadings (-10) (-33 / 4)) (fun _ _ => 0) {} 10 .identity endingTables
        { needTypoCorrection := true } hakaText =
      convert (twoReadings (-10) (-33 / 4)) (fun _ _ => 0) {} 10 .reversed endingTables
        { needTypoCorrection := true } hakaText := by
  have hmap : hakaText.inputToSurfaceMap endingTables = [(0, 0), (1, 1), (2, 2)] := by
    decide +kernel
  refine (convert_seed_free .identity .reversed).1 ⟨?_, ?_⟩
  · intro input input' surface hin hin' hne
    rw [hmap] at hin hin'
    simp only [List.mem_cons, Prod.mk.injEq, List.not_mem_nil, or_false] at hin hin'
    omega
  · intro _ lattice hbuild start hstart found hfound found' hfound' hne node node' before before'
      hnode hnode' hchain hchain'
    have hlength : hakaText.input.length = 2 := rfl
    obtain rfl | rfl : start = 0 ∨ start = 1 := by omega
    · -- は: two readings have a word, which ends before か
      have hplaces : ∀ found ∈ readings .kana endingTables hakaText.input 0,
          ∀ node ∈ prefixNodes (twoReadings (-10) (-33 / 4)) [] 0 found,
            node.slot.1 = .input 0 := by decide +kernel
      have hplaced := buildLattice_placed hbuild
      have hzero : ∀ surface, (0, surface) ∈ hakaText.inputToSurfaceMap endingTables →
          surface = 0 := by
        rw [hmap]
        simp
      obtain rfl := hchain.before_eq_nil hplaced hzero (hplaces found hfound node.unplaced hnode)
      obtain rfl := hchain'.before_eq_nil hplaced hzero
        (hplaces found' hfound' node'.unplaced hnode')
      have hends : ∀ found ∈ readings .kana endingTables hakaText.input 0,
          ∀ node ∈ prefixNodes (twoReadings (-10) (-33 / 4)) [] 0 found,
            ¬EndsText hakaText ((DualIndexMap.new .identity hakaText endingTables).dual
              node.range.endIndex) := by decide +kernel
      refine ⟨fun hend => absurd hend (hends found hfound node.unplaced hnode),
        fun after _ _ _ _ _ => ?_⟩
      have htotal : ∀ node : LatticeNode,
          leadTotal (twoReadings (-10) (-33 / 4)) {} [node] after =
            leadTotal (twoReadings (-10) (-33 / 4)) {} [node.unplaced] node.unplaced :=
        fun _ => rfl
      rw [htotal node, htotal node']
      have happart : ∀ found ∈ readings .kana endingTables hakaText.input 0,
          ∀ found' ∈ readings .kana endingTables hakaText.input 0, found ≠ found' →
            ∀ node ∈ prefixNodes (twoReadings (-10) (-33 / 4)) [] 0 found,
              ∀ node' ∈ prefixNodes (twoReadings (-10) (-33 / 4)) [] 0 found',
                leadTotal (twoReadings (-10) (-33 / 4)) {} [node] node ≠
                  leadTotal (twoReadings (-10) (-33 / 4)) {} [node'] node' := by decide +kernel
      exact happart found hfound found' hfound' hne _ hnode _ hnode'
    · have hone : readings .kana endingTables hakaText.input 1 = [⟨['ガ'], 1, 7⟩] := by
        decide +kernel
      rw [hone, List.mem_singleton] at hfound hfound'
      exact absurd (hfound.trans hfound'.symm) hne

theorem convert_tied : ¬∀ (unicode : UnicodeTable) (lookups : Lookups unicode)
    (meaningCost : Nat → Nat → ℚ) (context : ConversionContext) (nBest : Nat)
    (tables : InputTableRegistry) (modifiers : ConversionModifiers) (composing : ComposingText),
    ComposingText.Reachable unicode tables composing → ∀ order order' : HashOrder,
      convert lookups meaningCost context nBest order tables modifiers composing =
        convert lookups meaningCost context nBest order' tables modifiers composing := by
  intro hall
  have hreach : ComposingText.Reachable .kana endingTables haText :=
    .edit (.insertStr ['は'] .direct) .new trivial
  have hsame := hall .kana (twoReadings (-10) (-17 / 2)) (fun _ _ => 0) {} 10 endingTables
    { needTypoCorrection := true } haText hreach .identity .reversed
  have hresults : ∀ order, order = HashOrder.identity ∨ order = .reversed →
      latticeResults (twoReadings (-10) (-17 / 2)) {} 10 order endingTables
          { needTypoCorrection := true } haText =
        some ((latticeResults (twoReadings (-10) (-17 / 2)) {} 10 order endingTables
          { needTypoCorrection := true } haText).getD []) := by
    rintro order (rfl | rfl) <;> decide +kernel
  rw [convert_of_falling (hresults .identity (.inl rfl)) (by decide +kernel) (by decide +kernel),
    convert_of_falling (hresults .reversed (.inr rfl)) (by decide +kernel) (by decide +kernel)]
    at hsame
  have htexts := congrArg (fun candidates => candidates.map (List.map Candidate.text)) hsame
  exact absurd htexts (by decide +kernel)

-- only rounding makes these two values equal: exactly, they are `-8 - 2 ^ (-22)` and `-8`
example :
    let lookups := twoReadings (-7 / 2 - 1 / 2 ^ 22) (-2)
    let value (found : TypoPrefix) : ℚ :=
      candidateValue lookups (fun _ _ => 0) {} ⟨prefixNodes lookups [] 0 found, 0⟩
    value ⟨['バ'], 1, 9 / 2⟩ = value ⟨['パ'], 1, 6⟩ := by decide +kernel

end single

end BeanKey.Lattice
