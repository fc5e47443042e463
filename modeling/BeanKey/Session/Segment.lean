import BeanKey.Session.Conversion
import BeanKey.Session.Request

/-! Converting the text before the cursor, and completing what is chosen in the whole text. -/
namespace BeanKey.Session
open Input BeanKey.Lattice

/-- What a count leaves of the whole text is what it leaves of the text before the cursor, and then
the surface after the cursor. -/
def ComposesWith (tables : InputTableRegistry) (text : ComposingText) (count : ComposingCount) :
    Prop :=
  (text.completePrefix tables count).surface =
    ((text.prefixToCursor tables).completePrefix tables count).surface ++
      text.surface.drop text.cursor

instance (tables : InputTableRegistry) (text : ComposingText) (count : ComposingCount) :
    Decidable (ComposesWith tables text count) :=
  inferInstanceAs (Decidable (_ = _))

/-- The count ends before an element from which on the input converts the same where it is cut at
the cursor. -/
def EndsApart (tables : InputTableRegistry) (text : ComposingText)
    (count : ComposingCount) : Prop :=
  ∃ index, count.follow (independentBoundaries tables text.input) text.cursor (.atInput 0) =
      some (.atInput index) ∧
    convertElements tables (text.input.drop index) =
      convertElements tables ((text.prefixToCursor tables).input.drop index) ++
        text.surface.drop text.cursor

/-- The count is of surface that does not pass the cursor, or, followed along the boundaries of the
input, it ends at such a position or apart from what stands after the cursor. -/
def CountsWithin (tables : InputTableRegistry) (text : ComposingText) (count : ComposingCount) :
    Prop :=
  (∃ surface ≤ text.cursor, count = .surface surface) ∨
    text.Coherent tables ∧ (text.Lands tables count ∨ EndsApart tables text count)

variable {unicode : UnicodeTable} {tables : InputTableRegistry} {text : ComposingText}

/-! ### Counts -/

theorem completePrefix_surface (text : ComposingText) (count : Nat) :
    (text.completePrefix tables (.surface count)).surface = text.surface.drop count := by
  show (text.forceInputCursor tables _).1.surface.drop _ = _
  rw [ComposingText.forceInputCursor_surface, ComposingText.drop_min_length]

/-- A count of surface composes exactly where it does not pass the cursor. -/
theorem composesWith_surface_iff (hlt : text.cursor < text.surface.length) (count : Nat) :
    ComposesWith tables text (.surface count) ↔ count ≤ text.cursor := by
  rw [ComposesWith, completePrefix_surface, completePrefix_surface,
    ComposingText.prefixToCursor_surface]
  constructor
  · intro heq
    have hlength := congrArg List.length heq
    simp only [List.length_append, List.length_drop, List.length_take] at hlength
    omega
  · intro hle
    conv_lhs => rw [← List.take_append_drop text.cursor text.surface]
    rw [List.drop_append_of_le_length (by rw [List.length_take]; omega)]

theorem prefix_length (hlt : text.cursor < text.surface.length) :
    (text.prefixToCursor tables).surface.length = text.cursor := by
  rw [ComposingText.prefixToCursor_surface, List.length_take, Nat.min_eq_left hlt.le]

/-- A count that ends before an element composes exactly where the input from there on may be cut at
the cursor. -/
theorem composesWith_atInput_iff (hc : text.Coherent tables) (hpos : 0 < text.cursor)
    (hlt : text.cursor < text.surface.length) {count : ComposingCount} {index : Nat}
    (hfollow : count.follow (independentBoundaries tables text.input) text.cursor (.atInput 0) =
      some (.atInput index)) :
    ComposesWith tables text count ↔
      convertElements tables (text.input.drop index) =
        convertElements tables ((text.prefixToCursor tables).input.drop index) ++
          text.surface.drop text.cursor := by
  have hleads := ComposingText.prefixToCursor_wellFormed ⟨hc, hlt.le⟩
  have hstart : ComposingText.Leaves tables text text (.atInput 0) := ⟨hc, rfl⟩
  have hstart' : ComposingText.Leaves tables (text.prefixToCursor tables)
      (text.prefixToCursor tables) (.atInput 0) := ⟨hleads.coherent, rfl⟩
  have hsame : ComposingText.SameStanding
      (independentBoundaries tables (text.prefixToCursor tables).input) (.atInput 0) (.atInput 0) :=
    rfl
  obtain ⟨standing, hfollow', rfl⟩ := ComposingText.follow_prefix hc hpos hlt hsame hfollow
  obtain ⟨hwhole, hinput⟩ := hstart.follow hc hlt.le hfollow
  obtain ⟨hbefore, hinput'⟩ := hstart'.follow hleads.coherent (prefix_length hlt).ge hfollow'
  rw [ComposesWith, hwhole.surface, hinput, hbefore.surface, hinput']

theorem CountsWithin.composesWith {count : ComposingCount} (h : CountsWithin tables text count)
    (hpos : 0 < text.cursor) (hlt : text.cursor < text.surface.length) :
    ComposesWith tables text count := by
  rcases h with ⟨surface, hle, rfl⟩ | ⟨hc, hlands | ⟨index, hfollow, happart⟩⟩
  · exact (composesWith_surface_iff hlt surface).mpr hle
  · exact ComposingText.completePrefix_of_lands hc hpos hlt hlands
  · exact (composesWith_atInput_iff hc hpos hlt hfollow).mpr happart

/-- The count is of surface, or it can be followed along the boundaries of the input. -/
def Followed (tables : InputTableRegistry) (text : ComposingText) (count : ComposingCount) : Prop :=
  (∃ surface, count = .surface surface) ∨
    ∃ standing, count.follow (independentBoundaries tables text.input) text.cursor (.atInput 0) =
      some standing

/-- A count that can be followed composes only where it counts within the cursor. -/
theorem Followed.countsWithin {count : ComposingCount} (h : Followed tables text count)
    (hc : text.Coherent tables) (hpos : 0 < text.cursor) (hlt : text.cursor < text.surface.length)
    (hcomposes : ComposesWith tables text count) : CountsWithin tables text count := by
  rcases h with ⟨surface, rfl⟩ | ⟨standing, hfollow⟩
  · exact .inl ⟨surface, (composesWith_surface_iff hlt surface).mp hcomposes, rfl⟩
  · refine .inr ⟨hc, ?_⟩
    cases standing with
    | atInput index =>
      exact .inr ⟨index, hfollow, (composesWith_atInput_iff hc hpos hlt hfollow).mp hcomposes⟩
    | within surface =>
      refine .inl ⟨surface, follow_within_le hfollow (fun _ h => nomatch h), ?_⟩
      exact Option.bind_eq_some_iff.mpr ⟨_, hfollow, rfl⟩

/-! ### What is offered -/

/-- The cursor is not inside what a rule wrote, and no element before it shows nothing. -/
structure Unsplit (tables : InputTableRegistry) (text : ComposingText) : Prop where
  boundary : ∃ index, ⟨index, text.cursor⟩ ∈ independentBoundaries tables text.input
  distinct : Distinct tables (text.prefixToCursor tables).input

theorem Unsplit.countsWithin (h : Unsplit tables text) (hc : text.Coherent tables)
    (hpos : 0 < text.cursor) (hlt : text.cursor < text.surface.length) {count : ComposingCount}
    {standing : Standing} {surface : Nat}
    (hfollow : count.follow (independentBoundaries tables (text.prefixToCursor tables).input)
      (text.prefixToCursor tables).surface.length (.atInput 0) = some standing)
    (hstanding : standing.surface?
      (independentBoundaries tables (text.prefixToCursor tables).input) = some surface)
    (hle : surface ≤ text.cursor) : CountsWithin tables text count := by
  obtain ⟨index, hindex⟩ := h.boundary
  have hlength := @prefix_length tables text hlt
  rw [hlength] at hfollow
  have hwhole := ComposingText.follow_of_prefix hc hpos hlt hindex hfollow
  refine .inr ⟨hc, .inl ⟨surface, hle, Option.bind_eq_some_iff.mpr ⟨standing, hwhole, ?_⟩⟩⟩
  have hboth := ComposingText.mem_boundaries_prefix_iff hc hpos hlt hindex
  cases standing with
  | atInput index =>
    have hmem := surface?_atInput.mp hstanding
    exact surface?_atInput.mpr ((hboth _).mp hmem).1
  | within position => exact hstanding

/-- The count ends before an element of the text before the cursor that is no boundary of it. -/
def EndsBetween (tables : InputTableRegistry) (text : ComposingText) (count : ComposingCount) :
    Prop :=
  ∃ index, count.follow (independentBoundaries tables (text.prefixToCursor tables).input)
      text.cursor (.atInput 0) = some (.atInput index) ∧
    boundaryOf (independentBoundaries tables (text.prefixToCursor tables).input) index = none

section
variable {lookups : Lookups unicode} {meaningCost : Nat → Nat → ℚ} {context : ConversionContext}
  {nBest : Nat} {order : HashOrder} {modifiers : ConversionModifiers} {lattice : LatticeNodes}
  {candidates : List Lattice.Candidate} {candidate : Lattice.Candidate}

/-- A chain counts within the cursor, unless it ends with a corrected node before an element that
is no boundary: always where nothing is corrected, and otherwise where the cursor splits nothing. -/
theorem chain_countsWithin (hc : text.Coherent tables) (hpos : 0 < text.cursor)
    (hlt : text.cursor < text.surface.length)
    (hbuild : buildLattice lookups order tables modifiers (text.prefixToCursor tables) =
      some lattice)
    (hfree : modifiers.needTypoCorrection = false ∨ Unsplit tables text)
    {node : LatticeNode} {before : List LatticeNode}
    (hchain : lattice.IsChain (.new order (text.prefixToCursor tables) tables) none
      (node :: before))
    (hwithin : node.range.endsWithin (text.prefixToCursor tables)) :
    CountsWithin tables text (countOf ((node :: before).reverse.map LatticeNode.range)) ∨
      EndsBetween tables text (countOf ((node :: before).reverse.map LatticeNode.range)) ∧
        (standingAfter tables (text.prefixToCursor tables) node.range).surface?
          (independentBoundaries tables (text.prefixToCursor tables).input) = none := by
  have hleads := ComposingText.prefixToCursor_wellFormed ⟨hc, hlt.le⟩
  have hlength := @prefix_length tables text hlt
  rcases hfree with htypo | hunsplit
  · obtain ⟨first, last, hrange, hcount⟩ :=
      IsChain_surface (fun node hnode => has_surface hbuild htypo hnode) hchain
    rw [hrange] at hwithin
    exact .inl (.inl ⟨last, hlength ▸ hwithin, hcount⟩)
  · have hfollow := IsChain_follow hleads.coherent hunsplit.distinct (buildLattice_placed hbuild)
      hchain hwithin
    cases hstanding : (standingAfter tables (text.prefixToCursor tables) node.range).surface?
        (independentBoundaries tables (text.prefixToCursor tables).input) with
    | some surface =>
      refine .inl (hunsplit.countsWithin hc hpos hlt hfollow hstanding ?_)
      cases hrange : node.range with
      | input first last =>
        rw [hrange] at hstanding
        have hmem := surface?_atInput.mp hstanding
        exact (hleads.coherent.boundary_le hmem).trans hlength.le
      | surface first last =>
        rw [hrange] at hstanding hwithin
        obtain rfl : last = surface :=
          Option.some.inj ((ComposingText.standingAt_surface last).symm.trans hstanding)
        exact hlength ▸ hwithin
    | none =>
      refine .inr ⟨?_, rfl⟩
      rw [hlength] at hfollow
      cases hrange : node.range with
      | input first last =>
        rw [hrange] at hstanding hfollow
        exact ⟨last, hfollow, Option.map_eq_none_iff.mp hstanding⟩
      | surface first last =>
        rw [hrange, standingAfter, ComposingText.standingAt_surface] at hstanding
        cases hstanding

/-- A chain can be followed, where nothing is corrected and where the cursor splits nothing. -/
theorem chain_followed (hc : text.Coherent tables) (hpos : 0 < text.cursor)
    (hlt : text.cursor < text.surface.length)
    (hbuild : buildLattice lookups order tables modifiers (text.prefixToCursor tables) =
      some lattice)
    (hfree : modifiers.needTypoCorrection = false ∨ Unsplit tables text)
    {node : LatticeNode} {before : List LatticeNode}
    (hchain : lattice.IsChain (.new order (text.prefixToCursor tables) tables) none
      (node :: before))
    (hwithin : node.range.endsWithin (text.prefixToCursor tables)) :
    Followed tables text (countOf ((node :: before).reverse.map LatticeNode.range)) := by
  have hleads := ComposingText.prefixToCursor_wellFormed ⟨hc, hlt.le⟩
  rcases hfree with htypo | hunsplit
  · obtain ⟨first, last, -, hcount⟩ :=
      IsChain_surface (fun node hnode => has_surface hbuild htypo hnode) hchain
    exact .inl ⟨last, hcount⟩
  · have hfollow := IsChain_follow hleads.coherent hunsplit.distinct (buildLattice_placed hbuild)
      hchain hwithin
    rw [prefix_length hlt] at hfollow
    obtain ⟨index, hindex⟩ := hunsplit.boundary
    exact .inr ⟨_, ComposingText.follow_of_prefix hc hpos hlt hindex hfollow⟩

theorem conversion_chain (hc : text.Coherent tables) (hlt : text.cursor < text.surface.length)
    (hconvert : convert lookups meaningCost context nBest order tables modifiers
      (text.prefixToCursor tables) = some candidates) (hin : candidate ∈ candidates) :
    ∃ lattice, buildLattice lookups order tables modifiers (text.prefixToCursor tables) =
        some lattice ∧ ∃ node before,
      lattice.IsChain (.new order (text.prefixToCursor tables) tables) none (node :: before) ∧
      node.range.endsWithin (text.prefixToCursor tables) ∧
      (standingAfter tables (text.prefixToCursor tables) node.range).surface?
        (independentBoundaries tables (text.prefixToCursor tables).input) ≠ none ∧
      candidate.composingCount = countOf ((node :: before).reverse.map LatticeNode.range) := by
  obtain ⟨-, results, path, hresults, hpath, rfl⟩ := mem_convert hconvert hin
  obtain ⟨lattice, hbuild, node, before, hnodes, hchain, hend⟩ :=
    latticeResults_chains hresults hpath
  have hleads := ComposingText.prefixToCursor_wellFormed ⟨hc, hlt.le⟩
  obtain ⟨hwithin, hstanding⟩ := standingAfter_ends hleads.coherent hend
  refine ⟨lattice, hbuild, node, before, hchain, hwithin, ?_, ?_⟩
  · rw [hstanding]
    exact Option.some_ne_none _
  · rw [makeCandidate_count, hnodes]

theorem firstClause_chain (hc : text.Coherent tables) (hlt : text.cursor < text.surface.length)
    (hconvert : convert lookups meaningCost context nBest order tables modifiers
      (text.prefixToCursor tables) = some candidates) (hin : candidate ∈ candidates)
    {clause : Lattice.Candidate} (hclause : candidate.firstClauseCandidate unicode = some clause) :
    ∃ lattice, buildLattice lookups order tables modifiers (text.prefixToCursor tables) =
        some lattice ∧ ∃ node before,
      lattice.IsChain (.new order (text.prefixToCursor tables) tables) none (node :: before) ∧
      node.range.endsWithin (text.prefixToCursor tables) ∧
      clause.composingCount = countOf ((node :: before).reverse.map LatticeNode.range) := by
  obtain ⟨-, results, path, hresults, hpath, rfl⟩ := mem_convert hconvert hin
  obtain ⟨lattice, hbuild, last, rest, hpathNodes, hchain, hend⟩ :=
    latticeResults_chains hresults hpath
  have hleads := ComposingText.prefixToCursor_wellFormed ⟨hc, hlt.le⟩
  have hplaced := buildLattice_placed hbuild
  obtain ⟨after, before, hnodes, hne, -, hcount⟩ :=
    firstClauseCandidate_spec (by rw [hpathNodes]; simp) hclause
  obtain ⟨node, before, rfl⟩ := List.exists_cons_of_ne_nil hne
  rw [hpathNodes] at hnodes
  cases after with
  | nil =>
    obtain ⟨rfl, rfl⟩ := List.cons.inj hnodes
    obtain ⟨hwithin, -⟩ := standingAfter_ends hleads.coherent hend
    exact ⟨lattice, hbuild, last, rest, hchain, hwithin, hcount⟩
  | cons next after =>
    rw [hnodes] at hchain
    obtain ⟨hbeginning, next, hhas, hstart⟩ := hchain.beginning (List.cons_ne_nil _ _)
    have hwithin := endsWithin_of_starts hleads.coherent hstart (hplaced.has_within hhas)
    exact ⟨lattice, hbuild, node, before, hbeginning, hwithin, hcount⟩

theorem conversion_countsWithin (hc : text.Coherent tables) (hpos : 0 < text.cursor)
    (hlt : text.cursor < text.surface.length)
    (hconvert : convert lookups meaningCost context nBest order tables modifiers
      (text.prefixToCursor tables) = some candidates) (hin : candidate ∈ candidates)
    (hfree : modifiers.needTypoCorrection = false ∨ Unsplit tables text) :
    CountsWithin tables text candidate.composingCount := by
  obtain ⟨lattice, hbuild, node, before, hchain, hwithin, hstands, hcount⟩ :=
    conversion_chain hc hlt hconvert hin
  rw [hcount]
  rcases chain_countsWithin hc hpos hlt hbuild hfree hchain hwithin with hcounts | ⟨-, hnone⟩
  · exact hcounts
  · exact absurd hnone hstands

theorem firstClause_countsWithin (hc : text.Coherent tables) (hpos : 0 < text.cursor)
    (hlt : text.cursor < text.surface.length)
    (hconvert : convert lookups meaningCost context nBest order tables modifiers
      (text.prefixToCursor tables) = some candidates) (hin : candidate ∈ candidates)
    {clause : Lattice.Candidate} (hclause : candidate.firstClauseCandidate unicode = some clause)
    (hfree : modifiers.needTypoCorrection = false ∨ Unsplit tables text) :
    CountsWithin tables text clause.composingCount ∨
      EndsBetween tables text clause.composingCount := by
  obtain ⟨lattice, hbuild, node, before, hchain, hwithin, hcount⟩ :=
    firstClause_chain hc hlt hconvert hin hclause
  rw [hcount]
  exact (chain_countsWithin hc hpos hlt hbuild hfree hchain hwithin).imp id And.left

theorem word_count (h : candidate ∈ wordCandidates lookups (text.prefixToCursor tables)) :
    ∃ count, candidate.composingCount = .surface count ∧
      count ≤ (katakanaGraphemes unicode (text.prefixToCursor tables)).length := by
  rw [wordCandidates] at h
  split at h
  · exact absurd h List.not_mem_nil
  · rw [mem_sortByRuby, uniqueCandidates, mem_sortByValue] at h
    obtain ⟨found, hfound, hentry⟩ := List.mem_flatMap.mp (mem_unique h)
    obtain ⟨entry, -, rfl⟩ := List.mem_map.mp hentry
    exact ⟨found.surfaceEnd, rfl,
      (lookups.matches_within _ _ found hfound).2.trans (min_le_right _ _)⟩

theorem representation_count {toUppercase : Text → Text} {composing : ComposingText}
    {fullWidthRoman halfWidthKana : Bool} (h : candidate ∈ representationCandidates unicode
      toUppercase composing fullWidthRoman halfWidthKana) :
    candidate.composingCount = .input composing.input.length := by
  obtain ⟨word, -, rfl⟩ := List.mem_map.mp h
  rfl

theorem Unsplit.representation_countsWithin (h : Unsplit tables text) (hc : text.Coherent tables)
    (hpos : 0 < text.cursor) (hlt : text.cursor < text.surface.length) :
    CountsWithin tables text (.input (text.prefixToCursor tables).input.length) := by
  have hleads := ComposingText.prefixToCursor_wellFormed ⟨hc, hlt.le⟩
  have hmem := end_mem_boundaries tables (text.prefixToCursor tables).input
  rw [← hleads.coherent.surface] at hmem
  have hfollow : (ComposingCount.input (text.prefixToCursor tables).input.length).follow
      (independentBoundaries tables (text.prefixToCursor tables).input)
        (text.prefixToCursor tables).surface.length (.atInput 0) =
      some (.atInput (text.prefixToCursor tables).input.length) := by
    rw [ComposingCount.follow, Nat.zero_add]
  exact h.countsWithin hc hpos hlt hfollow (surface?_atInput.mpr hmem) (prefix_length hlt).le

end

/-! ### The request -/

/-- The candidates of a segment request, which converts the text before the cursor. -/
def segmentRequest (lookups : Lookups unicode) (toUppercase : Text → Text)
    (meaningCost : Nat → Nat → ℚ) (expandTemplates : Text → Text) (order : HashOrder)
    (tables : InputTableRegistry) (additionalEntries : List DictionaryEntry)
    (options : RequestOptions) (extras : RequestExtras) (session : ConversionSession) :
    Option (List Lattice.Candidate) :=
  let session := session.beginSegmentRequest tables
  request lookups toUppercase meaningCost expandTemplates order tables session.context
    additionalEntries options extras session.composing

section
variable {lookups : Lookups unicode} {toUppercase : Text → Text} {meaningCost : Nat → Nat → ℚ}
  {expandTemplates : Text → Text} {order : HashOrder} {additionalEntries : List DictionaryEntry}
  {options : RequestOptions} {extras : RequestExtras} {session : ConversionSession}
  {results : List Lattice.Candidate} {candidate : Lattice.Candidate}

theorem segmentRequest_eq (hnone : session.fullComposing = none)
    (hlt : session.composing.cursor < session.composing.surface.length) :
    segmentRequest lookups toUppercase meaningCost expandTemplates order tables additionalEntries
        options extras session =
      request lookups toUppercase meaningCost expandTemplates order tables session.context
        additionalEntries options extras (session.composing.prefixToCursor tables) := by
  have hend : session.composing.isAtEnd = false := decide_eq_false hlt.ne
  simp [segmentRequest, ConversionSession.beginSegmentRequest, hnone, hend,
    ConversionSession.retainPredictionPrefix]

/-- Where the cursor splits nothing, what is offered counts within it, a first clause that ends
before an element that is no boundary apart. -/
theorem offered_countsWithin (hc : session.composing.Coherent tables)
    (hnone : session.fullComposing = none) (hpos : 0 < session.composing.cursor)
    (hlt : session.composing.cursor < session.composing.surface.length)
    (hunsplit : Unsplit tables session.composing)
    (hwords : (katakanaGraphemes unicode (session.composing.prefixToCursor tables)).length ≤
      session.composing.cursor)
    (hextras : ∀ extra ∈ extras.candidates unicode (session.composing.prefixToCursor tables),
      CountsWithin tables session.composing extra.composingCount)
    (hresults : segmentRequest lookups toUppercase meaningCost expandTemplates order tables
      additionalEntries options extras session = some results) (hin : candidate ∈ results) :
    CountsWithin tables session.composing candidate.composingCount ∨
      EndsBetween tables session.composing candidate.composingCount := by
  rw [segmentRequest_eq hnone hlt, request] at hresults
  obtain ⟨full, hconvert, rfl⟩ := Option.map_eq_some_iff.mp hresults
  obtain ⟨source, hcount, hsource⟩ := mem_assembleRequest hin
  rw [← hcount]
  rcases hsource with hfull | ⟨whole, hwhole, hclause⟩ | hword | hrepresentation | hextra
  · exact .inl (conversion_countsWithin hc hpos hlt hconvert hfull (.inr hunsplit))
  · exact firstClause_countsWithin hc hpos hlt hconvert hwhole hclause (.inr hunsplit)
  · obtain ⟨surface, hsurface, hle⟩ := word_count hword
    exact .inl (.inl ⟨surface, hle.trans hwords, hsurface⟩)
  · rw [representation_count hrepresentation]
    exact .inl (hunsplit.representation_countsWithin hc hpos hlt)
  · exact .inl (hextras source hextra)

/-- What is offered can be followed, where nothing is corrected and where the cursor splits
nothing. -/
theorem offered_followed (hc : session.composing.Coherent tables)
    (hnone : session.fullComposing = none) (hpos : 0 < session.composing.cursor)
    (hlt : session.composing.cursor < session.composing.surface.length)
    (hfree : options.needTypoCorrection = false ∨ Unsplit tables session.composing)
    (hresults : segmentRequest lookups toUppercase meaningCost expandTemplates order tables
      additionalEntries options extras session = some results) (hin : candidate ∈ results) :
    Followed tables session.composing candidate.composingCount ∨
      ∃ extra ∈ extras.candidates unicode (session.composing.prefixToCursor tables),
        extra.composingCount = candidate.composingCount := by
  rw [segmentRequest_eq hnone hlt, request] at hresults
  obtain ⟨full, hconvert, rfl⟩ := Option.map_eq_some_iff.mp hresults
  obtain ⟨source, hcount, hsource⟩ := mem_assembleRequest hin
  rw [← hcount]
  rcases hsource with hfull | ⟨whole, hwhole, hclause⟩ | hword | hrepresentation | hextra
  · obtain ⟨lattice, hbuild, node, before, hchain, hwithin, -, hnodes⟩ :=
      conversion_chain hc hlt hconvert hfull
    rw [hnodes]
    exact .inl (chain_followed hc hpos hlt hbuild hfree hchain hwithin)
  · obtain ⟨lattice, hbuild, node, before, hchain, hwithin, hnodes⟩ :=
      firstClause_chain hc hlt hconvert hwhole hclause
    rw [hnodes]
    exact .inl (chain_followed hc hpos hlt hbuild hfree hchain hwithin)
  · obtain ⟨surface, hsurface, -⟩ := word_count hword
    exact .inl (.inl ⟨surface, hsurface⟩)
  · rw [representation_count hrepresentation]
    exact .inl (.inr ⟨_, rfl⟩)
  · exact .inr ⟨source, hextra, rfl⟩

/-- What is offered for a segment composes where it counts within the cursor, and only there where
nothing is corrected or the cursor splits nothing, extras apart. Where the cursor splits nothing all
of it counts so, a first clause that ends before an element that is no boundary apart. -/
theorem segment_composes (hnone : session.fullComposing = none)
    (hpos : 0 < session.composing.cursor)
    (hlt : session.composing.cursor < session.composing.surface.length)
    (hresults : segmentRequest lookups toUppercase meaningCost expandTemplates order tables
      additionalEntries options extras session = some results) (hin : candidate ∈ results) :
    (CountsWithin tables session.composing candidate.composingCount →
      ComposesWith tables session.composing candidate.composingCount) ∧
    (session.composing.Coherent tables →
      options.needTypoCorrection = false ∨ Unsplit tables session.composing →
      ComposesWith tables session.composing candidate.composingCount →
      CountsWithin tables session.composing candidate.composingCount ∨
        ∃ extra ∈ extras.candidates unicode (session.composing.prefixToCursor tables),
          extra.composingCount = candidate.composingCount) ∧
    (session.composing.Coherent tables → Unsplit tables session.composing →
      (katakanaGraphemes unicode (session.composing.prefixToCursor tables)).length ≤
        session.composing.cursor →
      (∀ extra ∈ extras.candidates unicode (session.composing.prefixToCursor tables),
        CountsWithin tables session.composing extra.composingCount) →
      CountsWithin tables session.composing candidate.composingCount ∨
        EndsBetween tables session.composing candidate.composingCount) := by
  refine ⟨fun hcounts => hcounts.composesWith hpos hlt, ?_, ?_⟩
  · intro hc hfree hcomposes
    rcases offered_followed hc hnone hpos hlt hfree hresults hin with hfollowed | hextra
    · exact .inl (hfollowed.countsWithin hc hpos hlt hcomposes)
    · exact .inr hextra
  · intro hc hunsplit hwords hextras
    exact offered_countsWithin hc hnone hpos hlt hunsplit hwords hextras hresults hin

theorem segment_offers (hnone : session.fullComposing = none)
    (hlt : session.composing.cursor < session.composing.surface.length)
    (hnowords : wordCandidates lookups (session.composing.prefixToCursor tables) = [])
    {paths : List RegisteredPath}
    (hpaths : latticeResults lookups session.context options.nBest order tables
      { additionalEntries, needTypoCorrection := options.needTypoCorrection }
      (session.composing.prefixToCursor tables) = some paths) {word : Lattice.Candidate}
    (hword : word ∈ representationCandidates unicode toUppercase
      (session.composing.prefixToCursor tables) options.fullWidthRoman options.halfWidthKana)
    (htext : word.text ≠ [])
    (hapart : ∀ path ∈ paths,
      (makeCandidate lookups meaningCost session.context path).text ≠ word.text ∧
      ∀ clause, (makeCandidate lookups meaningCost session.context path).firstClauseCandidate
        unicode = some clause → clause.text ≠ word.text) :
    ∃ results, segmentRequest lookups toUppercase meaningCost expandTemplates order tables
        additionalEntries options {} session = some results ∧
      ∃ candidate ∈ results, candidate.composingCount =
        .input (session.composing.prefixToCursor tables).input.length := by
  have hconvert := congrArg (Option.map fun results => uniqueCandidates (sortByValue
    (results.map (makeCandidate lookups meaningCost session.context)))) hpaths
  have hall : ∀ full, convert lookups meaningCost session.context options.nBest order tables
      { additionalEntries, needTypoCorrection := options.needTypoCorrection }
        (session.composing.prefixToCursor tables) = some full → ∀ whole ∈ full,
      whole.text ≠ word.text ∧ ∀ clause, whole.firstClauseCandidate unicode = some clause →
        clause.text ≠ word.text := by
    intro full hfull whole hwhole
    obtain ⟨-, results, path, hresults, hpath, rfl⟩ := mem_convert hfull hwhole
    obtain rfl := Option.some.inj (hpaths.symm.trans hresults)
    exact hapart path hpath
  have hnoextra : ∀ extra ∈ ({} : RequestExtras).candidates unicode
      (session.composing.prefixToCursor tables), extra.text ≠ word.text :=
    fun extra hextra => absurd hextra List.not_mem_nil
  rw [segmentRequest_eq hnone hlt, request]
  refine ⟨_, Option.map_eq_some_iff.mpr ⟨_, hconvert, rfl⟩, ?_⟩
  obtain ⟨same, hsame, -, hoffered⟩ := exists_word (List.mem_append_right _ hword) htext
    (fun whole hwhole => (hall _ hconvert whole hwhole).1)
    (fun whole hwhole => (hall _ hconvert whole hwhole).2) hnoextra
  rw [hnowords, List.nil_append] at hsame
  exact ⟨_, hoffered, (prepareCandidate_count same).trans (representation_count hsame)⟩

end

/-! ### Two segments -/

def halfWidthOptions : RequestOptions := { halfWidthKana := true }

/-- Typed with the rule that writes `きょ`, and the cursor moved back before the last kana. -/
def segmentSession (keys : Text) (style : InputStyle) : ConversionSession :=
  { composing := ((ComposingText.new.edit .kana ComposingText.kyoTables
      (.insertStr keys style)).edit .kana ComposingText.kyoTables (.moveCursor (-1))) }

theorem operated_segmentSession (keys : Text) (style : InputStyle) :
    ComposingText.Operated .kana ComposingText.kyoTables (fun _ _ => True)
      (segmentSession keys style).composing :=
  .edit (.moveCursor (-1)) (.edit (.insertStr keys style) .new trivial) trivial

def segmentResults (session : ConversionSession) : Option (List Lattice.Candidate) :=
  segmentRequest (.empty .kana) id (fun _ _ => 0) id .identity ComposingText.kyoTables []
    halfWidthOptions {} session

/-- A representation that no conversion has the text of is offered. -/
theorem segmentResults_offers {session : ConversionSession} (hnone : session.fullComposing = none)
    (hlt : session.composing.cursor < session.composing.surface.length) {text : Text}
    (htext : text ≠ [])
    (hword : ∃ word ∈ representationCandidates .kana id
      (session.composing.prefixToCursor ComposingText.kyoTables) true true, word.text = text)
    (hapart : (latticeResults (.empty .kana) session.context 10 .identity ComposingText.kyoTables {}
      (session.composing.prefixToCursor ComposingText.kyoTables)).map (List.all · fun path =>
        let candidate := makeCandidate (.empty .kana) (fun _ _ => 0) session.context path
        candidate.text ≠ text &&
          (candidate.firstClauseCandidate .kana).all fun clause => clause.text ≠ text) =
      some true) :
    ∃ results, segmentResults session = some results ∧
      ∃ candidate ∈ results, candidate.composingCount =
        .input (session.composing.prefixToCursor ComposingText.kyoTables).input.length := by
  have hnowords : wordCandidates (.empty .kana)
      (session.composing.prefixToCursor ComposingText.kyoTables) = [] := by
    rw [wordCandidates]
    split
    · rfl
    · simp [Lookups.empty, uniqueCandidates, sortByRuby, sortByValue]
  obtain ⟨word, hword, rfl⟩ := hword
  obtain ⟨paths, hpaths, hall⟩ := Option.map_eq_some_iff.mp hapart
  apply segment_offers hnone hlt hnowords hpaths hword htext
  intro path hpath
  have happart := List.all_eq_true.mp hall path hpath
  simp only [Bool.and_eq_true, decide_eq_true_eq, Option.all_eq_true] at happart
  exact happart

/-- The cursor stands between the two kana that one rule wrote. The input before it is one frozen
kana, and that count takes only the first of three keys from the whole. -/
theorem kyo_segment_decomposes :
    ComposingText.Operated .kana ComposingText.kyoTables (fun _ _ => True)
        (segmentSession ['k', 'y', 'o'] .romanToKana).composing ∧
    0 < (segmentSession ['k', 'y', 'o'] .romanToKana).composing.cursor ∧
    (segmentSession ['k', 'y', 'o'] .romanToKana).composing.cursor <
      (segmentSession ['k', 'y', 'o'] .romanToKana).composing.surface.length ∧
    ∃ results, segmentResults (segmentSession ['k', 'y', 'o'] .romanToKana) = some results ∧
      ∃ candidate ∈ results, ¬ComposesWith ComposingText.kyoTables
        (segmentSession ['k', 'y', 'o'] .romanToKana).composing candidate.composingCount := by
  have hlt : (segmentSession ['k', 'y', 'o'] .romanToKana).composing.cursor <
      (segmentSession ['k', 'y', 'o'] .romanToKana).composing.surface.length := by decide +kernel
  refine ⟨operated_segmentSession _ _, by decide +kernel, hlt, ?_⟩
  obtain ⟨results, hresults, candidate, hin, hcount⟩ := @segmentResults_offers
    (segmentSession ['k', 'y', 'o'] .romanToKana) rfl hlt ['ｷ'] (by decide) (by decide +kernel)
    (by decide +kernel)
  refine ⟨results, hresults, candidate, hin, ?_⟩
  rw [hcount]
  decide +kernel

/-- Two kana typed one for one: the representation of the first leaves the second. -/
theorem kana_segment_composes :
    ∃ results, segmentResults (segmentSession ['か', 'な'] .direct) = some results ∧
      ∃ candidate ∈ results, ComposesWith ComposingText.kyoTables
        (segmentSession ['か', 'な'] .direct).composing candidate.composingCount := by
  have hlt : (segmentSession ['か', 'な'] .direct).composing.cursor <
      (segmentSession ['か', 'な'] .direct).composing.surface.length := by decide +kernel
  obtain ⟨results, hresults, candidate, hin, hcount⟩ := @segmentResults_offers
    (segmentSession ['か', 'な'] .direct) rfl hlt ['ｶ'] (by decide) (by decide +kernel)
    (by decide +kernel)
  refine ⟨results, hresults, candidate, hin, ?_⟩
  apply (segment_composes rfl (by decide +kernel) hlt hresults hin).1
  have hc : (segmentSession ['か', 'な'] .direct).composing.Coherent ComposingText.kyoTables := by
    have hpieces : ∀ element ∈ (segmentSession ['か', 'な'] .direct).composing.input,
        element.piece ≠ .compositionSeparator := by decide +kernel
    exact ⟨by decide +kernel, fun element hin => quiet_of_piece_ne (hpieces element hin)⟩
  refine .inr ⟨hc, .inl ⟨1, by decide +kernel, ?_⟩⟩
  rw [hcount]
  decide +kernel

end BeanKey.Session
