import BeanKey.Lattice.Candidate
import BeanKey.Lattice.Exact

/-! What a conversion under a prefix constraint returns: candidates that satisfy it where the
constraint is enforced, and the best of these where the paths that meet are alike. -/
namespace BeanKey.Lattice
open Input TopK Zenz

def DictionaryEntry.isPersonal (entry : DictionaryEntry) : Bool :=
  entry.metadata.learned || entry.metadata.userDictionary

/-- The last entry of the candidate is a learned or user entry. -/
def Candidate.EndsPersonal (candidate : Candidate) : Prop :=
  ∃ entry, candidate.entries.getLast? = some entry ∧ entry.isPersonal = true

variable {unicode : UnicodeTable} {tables : InputTableRegistry} {order : HashOrder}
  {composing : ComposingText} {lookups : Lookups unicode} {context : ConversionContext}
  {nBest : Nat} {lattice : LatticeNodes} {map : DualIndexMap}
  {constraint : Option PrefixConstraint} {meaningCost : Nat → Nat → ℚ}

/-! ### Every result is let through -/

/-- Processing a node only adds results, and those end with the node and are let through. -/
theorem processNode_results {state next : SearchState} {node : LatticeNode}
    (h : processNode lookups context nBest map constraint composing lattice state node =
      some next) :
    ∃ added, next.results = state.results ++ added ∧
      ∀ path ∈ added, path.nodes.head? = some node ∧
        allowsResult constraint node.entry path = true := by
  unfold processNode at h
  dsimp only at h
  split at h
  · obtain rfl := Option.some.inj h
    exact ⟨[], by simp, fun _ hin => absurd hin List.not_mem_nil⟩
  · split at h
    · obtain rfl := Option.some.inj h
      refine ⟨_, rfl, ?_⟩
      intro path hpath
      obtain ⟨hcompleted, hallowed⟩ := List.mem_filter.mp hpath
      obtain ⟨lead, -, rfl⟩ := List.mem_map.mp (List.mem_of_mem_filter hcompleted)
      exact ⟨rfl, hallowed⟩
    · obtain ⟨nextNodes, -, rfl⟩ := Option.map_eq_some_iff.mp h
      exact ⟨[], by simp, fun _ hin => absurd hin List.not_mem_nil⟩

theorem nodesAt_has {index : DualIndex} {nodes : List LatticeNode}
    (h : lattice.nodesAt index = some nodes) : ∀ node ∈ nodes, lattice.Has node := by
  obtain ⟨surface, hsurface, hrest⟩ := Option.bind_eq_some_iff.mp h
  obtain ⟨input, hinput, rfl⟩ := Option.map_eq_some_iff.mp hrest
  intro node hnode
  cases List.mem_append.mp hnode with
  | inl hin =>
    split at hsurface
    · exact .inl ⟨surface, List.mem_of_getElem? hsurface, hin⟩
    · obtain rfl := Option.some.inj hsurface
      exact absurd hin List.not_mem_nil
  | inr hin =>
    split at hinput
    · exact .inr ⟨input, List.mem_of_getElem? hinput, hin⟩
    · obtain rfl := Option.some.inj hinput
      exact absurd hin List.not_mem_nil

/-- The results are paths that the constraint lets through at their last node. -/
def ResultsAllowed (lattice : LatticeNodes) (constraint : Option PrefixConstraint)
    (results : List RegisteredPath) : Prop :=
  ∀ path ∈ results, ∃ node, lattice.Has node ∧ path.nodes.head? = some node ∧
    allowsResult constraint node.entry path = true

theorem processIndex_allowed {state next : SearchState} {index : DualIndex}
    (h : processIndex lookups context nBest map constraint composing lattice state index =
      some next) (hstate : ResultsAllowed lattice constraint state.results) :
    ResultsAllowed lattice constraint next.results := by
  obtain ⟨nodes, hnodes, hrun⟩ := Option.bind_eq_some_iff.mp h
  refine Loop.foldlM_keeps (fun _ state => ResultsAllowed lattice constraint state.results) nodes
    hrun hstate ?_
  intro _ node _ state next hsplit hstate hnext
  obtain ⟨added, hresults, hadded⟩ := processNode_results hnext
  intro path hpath
  rw [hresults, List.mem_append] at hpath
  cases hpath with
  | inl hold => exact hstate path hold
  | inr hnew => exact ⟨node, nodesAt_has hnodes node (by simp [hsplit]), hadded path hnew⟩

theorem latticeResults_allowed {modifiers : ConversionModifiers} {results : List RegisteredPath}
    (h : latticeResults lookups context nBest order tables modifiers composing = some results)
    {path : RegisteredPath} (hpath : path ∈ results) :
    ∃ lattice node, buildLattice lookups order tables modifiers composing = some lattice ∧
      lattice.Has node ∧ path.nodes.head? = some node ∧
      allowsResult modifiers.constraint node.entry path = true := by
  unfold latticeResults at h
  split at h
  · obtain rfl := Option.some.inj h
    exact absurd hpath List.not_mem_nil
  · obtain ⟨lattice, hbuild, hrun⟩ := Option.bind_eq_some_iff.mp h
    obtain ⟨final, hfinal, rfl⟩ := Option.map_eq_some_iff.mp hrun
    have hallowed : ResultsAllowed lattice modifiers.constraint final.results := by
      refine Loop.foldlM_keeps
        (fun _ state => ResultsAllowed lattice modifiers.constraint state.results) _ hfinal
        (fun _ hin => absurd hin List.not_mem_nil) ?_
      intro _ _ _ _ _ _ hstate hnext
      exact processIndex_allowed hnext hstate
    obtain ⟨node, hnode⟩ := hallowed path hpath
    exact ⟨lattice, node, hbuild, hnode⟩

theorem makeCandidate_last (path : RegisteredPath) :
    (makeCandidate lookups meaningCost context path).entries.getLast? =
      path.nodes.head?.map LatticeNode.entry := by
  rw [makeCandidate_entries, List.map_reverse, List.getLast?_reverse, List.head?_map]

/-- A returned candidate satisfies an enforced constraint, and keeps to the fixed prefix of one
that is not. -/
theorem convert_allowed {modifiers : ConversionModifiers} {candidates : List Candidate}
    (h : convert lookups meaningCost context nBest order tables modifiers composing =
      some candidates) {candidate : Candidate} (hin : candidate ∈ candidates)
    {constraint : PrefixConstraint} (hconstraint : modifiers.constraint = some constraint) :
    ∃ lattice node, buildLattice lookups order tables modifiers composing = some lattice ∧
      lattice.Has node ∧ candidate.entries.getLast? = some node.entry ∧
      if enforcesConstraint constraint node.entry then
        constraint.isSatisfiedBy (utf8 candidate.text) = true
      else constraint.matchesFixedPrefix (utf8 candidate.text) = true := by
  obtain ⟨-, results, path, hresults, hpath, rfl⟩ := mem_convert h hin
  obtain ⟨lattice, node, hbuild, hnode, hhead, hallowed⟩ := latticeResults_allowed hresults hpath
  refine ⟨lattice, node, hbuild, hnode, ?_, ?_⟩
  · rw [makeCandidate_last, hhead]
    rfl
  · rw [utf8_makeCandidate]
    rw [hconstraint, allowsResult, Option.all_some] at hallowed
    split at hallowed
    · next henforced => rwa [if_pos henforced]
    · next henforced => rwa [if_neg henforced]

/-! ### A constraint whose flag is set -/

def wordEntry (word : Text) : DictionaryEntry :=
  { word, ruby := ['カ'], leftId := 0, rightId := 0, meaningId := 0, baseValue := 0 }

def Lookups.answering (unicode : UnicodeTable) (word : Text) : Lookups unicode where
  matchesFromStart ruby maximumLength :=
    if ruby = ['カ'] ∧ 0 < maximumLength then [⟨1, [wordEntry word]⟩] else []
  matches_within := by
    intro ruby maximumLength found hfound
    split at hfound
    · next hasked =>
      obtain ⟨rfl, hpos⟩ := hasked
      obtain rfl := List.mem_singleton.mp hfound
      have hcount : (graphemes unicode ['カ']).length = 1 := rfl
      rw [hcount]
      exact ⟨Nat.one_pos, le_min hpos le_rfl⟩
    · exact absurd hfound List.not_mem_nil
  exactMatch _ := []
  connectionCost _ _ := 0
  learnedMatches _ _ := []
  learnedExact _ := []

theorem wordEntry_kept {word : Text} (hword : word ≠ []) :
    shouldRemove unicode (wordEntry word) = false := by
  have hvalue : (wordEntry word).value = 0 := by simp [wordEntry, DictionaryEntry.value]
  have hpos : 0 < (graphemes unicode (wordEntry word).word).length :=
    List.length_pos_iff.mpr fun hnil => hword ((graphemes_eq_nil unicode).mp hnil)
  have hone : (1 : ℚ) ≤ (graphemes unicode (wordEntry word).word).length := by exact_mod_cast hpos
  have hbound : (-2 : ℚ) ≤ -2 / ((graphemes unicode (wordEntry word).word).length : ℚ) := by
    rw [le_div_iff₀ (by linarith)]
    linarith
  simp only [shouldRemove, hvalue, dictionaryThreshold, Rounding.rounded_exact]
  rw [if_neg (by norm_num)]
  simp only [hpos.ne', decide_false, Bool.false_or, decide_eq_false_iff_not, not_lt]
  linarith

def answeringNodes (word : Text) : List LatticeNode :=
  placeNodes (.surface 0) (.surface 0)
    ((wordEntry word, 1) :: (singleCharacterEntries ['カ']).map fun entry => (entry, 1))

theorem buildLattice_answering {word : Text} (hword : word ≠ []) (constraint : PrefixConstraint) :
    buildLattice (.answering .kana word) .identity endingTables { constraint := some constraint }
      kanaText = some ⟨[answeringNodes word], [[]]⟩ := by
  have hsurface : kanaText.surface.length = 1 := by decide +kernel
  have hinput : kanaText.input.length = 1 := by decide +kernel
  have hgraphemes : katakanaGraphemes .kana kanaText = [['カ']] := by decide +kernel
  simp only [buildLattice, hsurface, hinput, hgraphemes]
  simp [surfaceEntries, Lookups.answering, maximumDictionaryLength, wordEntry_kept hword,
    answeringNodes]

/-- The word is a result where the constraint only holds it against the fixed prefix. -/
theorem answering_result {word : Text} (hword : word ≠ []) {constraint : PrefixConstraint}
    (hflag : constraint.ignoreMemoryAndUserDictionary = true)
    (hmatches : constraint.matchesFixedPrefix (utf8 word) = true) :
    ∃ results path,
      latticeResults (.answering .kana word) {} 1 .identity endingTables
        { constraint := some constraint } kanaText = some results ∧
      path ∈ results ∧ (path.nodes.reverse.flatMap fun node => node.entry.word) = word := by
  have hc : kanaText.surface = convertElements endingTables kanaText.input := by decide +kernel
  have hcount : (katakanaGraphemes .kana kanaText).length = kanaText.surface.length := by
    decide +kernel
  obtain ⟨results, hresults⟩ : ∃ results, latticeResults (.answering .kana word) {} 1 .identity
      endingTables { constraint := some constraint } kanaText = some results :=
    latticeResults_total hc hcount
  refine ⟨results, ⟨[⟨(.surface 0, 0), wordEntry word, .surface 0 1⟩], 0⟩, hresults, ?_, ?_⟩
  · have hindices : (DualIndexMap.new .identity kanaText endingTables).indices
        kanaText.input.length kanaText.surface.length = [.both 0 0] := by decide +kernel
    rw [latticeResults, if_neg (by decide +kernel)] at hresults
    simp only [buildLattice_answering hword, Option.bind_some, hindices, List.foldlM_cons,
      List.foldlM_nil] at hresults
    obtain ⟨final, hfinal, rfl⟩ := Option.map_eq_some_iff.mp hresults
    obtain ⟨_, hindex, hsame⟩ := Option.bind_eq_some_iff.mp hfinal
    obtain rfl := Option.some.inj hsame
    obtain ⟨nodes, hnodes, hrun⟩ := Option.bind_eq_some_iff.mp hindex
    obtain rfl : answeringNodes word ++ [] = nodes := Option.some.inj hnodes
    rw [List.append_nil, answeringNodes, placeNodes, List.zipIdx_cons, List.map_cons,
      List.foldlM_cons] at hrun
    obtain ⟨state, hstate, hrest⟩ := Option.bind_eq_some_iff.mp hrun
    have hfirst : (⟨[⟨(.surface 0, 0), wordEntry word, .surface 0 1⟩], 0⟩ : RegisteredPath) ∈
        state.results := by
      have hlast : ((DualIndexMap.new .identity kanaText endingTables).dual
          (LatticeRange.surface 0 1).endIndex).surface? = some kanaText.surface.length := by
        decide +kernel
      have hlet : (⟨[⟨(.surface 0, 0), wordEntry word, .surface 0 1⟩], 0⟩ : RegisteredPath) =
          completePath (.answering .kana word) {} ⟨(.surface 0, 0), wordEntry word, .surface 0 1⟩
            ⟨[], 0⟩ := by
        simp [completePath, wordEntry, DictionaryEntry.value, Lookups.answering]
      simp only [processNode, startPredecessors] at hstate
      rw [if_neg (List.cons_ne_nil _ _), if_pos (.inl hlast)] at hstate
      obtain rfl := Option.some.inj hstate
      rw [hlet]
      simp [allowsPath, allowsResult, enforcesConstraint, hflag, completePath, pathBytes, wordEntry,
        hmatches]
    refine Loop.foldlM_keeps (fun _ state => _ ∈ state.results) _ hrest hfirst ?_
    intro _ node _ state next _ hin hnext
    obtain ⟨added, hadded, -⟩ := processNode_results hnext
    rw [hadded]
    exact List.mem_append_left _ hin
  · simp [wordEntry]

/-- Then the conversion of `か` returns the word. -/
theorem answering_candidate {word : Text} (hword : word ≠ []) {constraint : PrefixConstraint}
    (hflag : constraint.ignoreMemoryAndUserDictionary = true)
    (hmatches : constraint.matchesFixedPrefix (utf8 word) = true) :
    ∃ candidates, convert (.answering .kana word) (fun _ _ => 0) {} 1 .identity endingTables
        { constraint := some constraint } kanaText = some candidates ∧
      ∃ candidate ∈ candidates, candidate.text = word := by
  obtain ⟨results, path, hresults, hpath, hwords⟩ := answering_result hword hflag hmatches
  have hmade : (makeCandidate (.answering .kana word) (fun _ _ => 0) {} path).text = word := by
    rw [makeCandidate_text, hwords]
  obtain ⟨candidates, hconvert⟩ : ∃ candidates, convert (.answering .kana word) (fun _ _ => 0) {}
      1 .identity endingTables { constraint := some constraint } kanaText = some candidates := by
    rw [convert, hresults]
    exact ⟨_, rfl⟩
  obtain ⟨candidate, hin, hsame⟩ := exists_convert hconvert hresults hpath (by rwa [hmade])
  exact ⟨candidates, hconvert, candidate, hin, hsame.trans hmade⟩

/-- A conversion returns only what the constraint asks for exactly when its flag is not set,
or it asks for nothing beyond its fixed prefix. -/
theorem convert_sound_iff (constraint : PrefixConstraint) :
    (∀ (unicode : UnicodeTable) (tables : InputTableRegistry) (composing : ComposingText)
        (lookups : Lookups unicode) (meaningCost : Nat → Nat → ℚ) (context : ConversionContext)
        (nBest : Nat) (order : HashOrder) (additionalEntries : List DictionaryEntry)
        (needTypoCorrection : Bool) (candidates : List Candidate),
        convert lookups meaningCost context nBest order tables
            { additionalEntries, needTypoCorrection, constraint := some constraint } composing =
          some candidates →
        ∀ candidate ∈ candidates, constraint.isSatisfiedBy (utf8 candidate.text) = true ∨
          constraint.ignoreMemoryAndUserDictionary = false ∧ candidate.EndsPersonal) ↔
      (constraint.ignoreMemoryAndUserDictionary = false ∨
        ∀ text : Text, text ≠ [] → constraint.matchesFixedPrefix (utf8 text) = true →
          constraint.isSatisfiedBy (utf8 text) = true) := by
  constructor
  · intro hsound
    by_contra hnot
    obtain ⟨hset, hasks⟩ := not_or.mp hnot
    push Not at hasks
    obtain ⟨text, htext, hmatches, hunsatisfied⟩ := hasks
    obtain ⟨candidates, hconvert, candidate, hin, hsame⟩ :=
      answering_candidate htext (Bool.eq_true_of_not_eq_false hset) hmatches
    cases hsound _ _ _ _ _ _ _ _ _ _ _ hconvert candidate hin with
    | inl hsatisfied =>
      rw [hsame] at hsatisfied
      exact hunsatisfied hsatisfied
    | inr hpersonal => exact hset hpersonal.1
  · intro hasks unicode tables composing lookups meaningCost context nBest order
      additionalEntries needTypoCorrection candidates hconvert candidate hin
    obtain ⟨-, node, -, -, hlast, hallowed⟩ := convert_allowed hconvert hin rfl
    by_cases henforced : enforcesConstraint constraint node.entry = true
    · rw [if_pos henforced] at hallowed
      exact .inl hallowed
    · rw [if_neg henforced] at hallowed
      cases hasks with
      | inl hflag =>
        refine .inr ⟨hflag, node.entry, hlast, ?_⟩
        unfold enforcesConstraint at henforced
        unfold DictionaryEntry.isPersonal
        cases hlearned : node.entry.metadata.learned with
        | true => rfl
        | false => simpa [hflag, hlearned] using henforced
      | inr hasks =>
        have htext := (mem_convert hconvert hin).1
        exact .inl (hasks candidate.text htext hallowed)

/-- With the flag set, a search for `あ` returns `か`. -/
theorem convert_unsound :
    ¬∀ (constraint : PrefixConstraint) (unicode : UnicodeTable) (tables : InputTableRegistry)
        (composing : ComposingText) (lookups : Lookups unicode) (meaningCost : Nat → Nat → ℚ)
        (context : ConversionContext) (nBest : Nat) (order : HashOrder)
        (additionalEntries : List DictionaryEntry) (needTypoCorrection : Bool)
        (candidates : List Candidate),
        convert lookups meaningCost context nBest order tables
            { additionalEntries, needTypoCorrection, constraint := some constraint } composing =
          some candidates →
        ∀ candidate ∈ candidates, constraint.isSatisfiedBy (utf8 candidate.text) = true ∨
          constraint.ignoreMemoryAndUserDictionary = false ∧ candidate.EndsPersonal := by
  intro hsound
  obtain ⟨candidates, hconvert, candidate, hin, hsame⟩ := answering_candidate
    (List.cons_ne_nil 'か' []) (rfl : (⟨utf8 ['あ'], false, true, none⟩ :
      PrefixConstraint).ignoreMemoryAndUserDictionary = true) rfl
  cases hsound _ _ _ _ _ _ _ _ _ _ _ _ hconvert candidate hin with
  | inl hsatisfied =>
    rw [hsame] at hsatisfied
    exact absurd hsatisfied (by decide +kernel)
  | inr hpersonal => exact Bool.noConfusion hpersonal.1

end BeanKey.Lattice
