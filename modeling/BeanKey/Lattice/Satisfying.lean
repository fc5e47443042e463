import BeanKey.Lattice.Constrained

/-! The complete paths that satisfy a constraint, and when the search finds the best of them: a
node keeps only its best predecessors, whatever their texts. -/
namespace BeanKey.Zenz.PrefixConstraint

variable {constraint : PrefixConstraint} {candidate longer : List UInt8}

theorem canContinue_of_satisfied (h : constraint.isSatisfiedBy candidate = true) :
    constraint.canContinue candidate = true := by
  unfold isSatisfiedBy at h
  unfold canContinue
  split at h
  · next heos =>
    rw [if_pos heos, of_decide_eq_true h]
    simp
  · next heos =>
    rw [if_neg heos, h, Bool.or_true]

theorem canContinue_of_prefix (hleads : candidate <+: longer)
    (h : constraint.canContinue longer = true) : constraint.canContinue candidate = true := by
  unfold canContinue at h ⊢
  split at h
  · next heos =>
    rw [Bool.and_eq_true, decide_eq_true_eq, List.isPrefixOf_iff_prefix] at h
    rw [if_pos heos, Bool.and_eq_true, decide_eq_true_eq, List.isPrefixOf_iff_prefix]
    exact ⟨hleads.length_le.trans h.1, hleads.trans h.2⟩
  · next heos =>
    rw [Bool.or_eq_true, List.isPrefixOf_iff_prefix, List.isPrefixOf_iff_prefix] at h
    rw [if_neg heos, Bool.or_eq_true, List.isPrefixOf_iff_prefix, List.isPrefixOf_iff_prefix]
    cases h with
    | inl h => exact .inl (hleads.trans h)
    | inr h => exact List.prefix_or_prefix_of_prefix hleads h

/-- Texts that can continue go on alike where they are of one length, or both reach the end of
the constraint. -/
theorem alike_of_canContinue (h : constraint.canContinue candidate = true)
    (h' : constraint.canContinue longer = true)
    (hlength : candidate.length = longer.length ∨
      constraint.bytes.length ≤ candidate.length ∧ constraint.bytes.length ≤ longer.length) :
    (∀ next, constraint.canContinue (candidate ++ next) = constraint.canContinue (longer ++ next)) ∧
      constraint.isSatisfiedBy candidate = constraint.isSatisfiedBy longer := by
  by_cases hsame : candidate = longer
  · rw [hsame]
    exact ⟨fun _ => rfl, rfl⟩
  · unfold canContinue at h h'
    by_cases heos : constraint.hasEos = true
    · rw [if_pos heos, Bool.and_eq_true, decide_eq_true_eq, List.isPrefixOf_iff_prefix] at h h'
      obtain ⟨hle, hleads⟩ := h
      obtain ⟨hle', hleads'⟩ := h'
      have hequal : candidate.length = longer.length := by omega
      exact absurd (List.prefix_of_prefix_length_le hleads hleads' hequal.le |>.eq_of_length
        hequal) hsame
    · rw [if_neg heos, Bool.or_eq_true, List.isPrefixOf_iff_prefix,
        List.isPrefixOf_iff_prefix] at h h'
      have hshort : ∀ {text : List UInt8}, (text <+: constraint.bytes ∨ constraint.bytes <+: text) →
          constraint.bytes.length ≤ text.length → constraint.bytes <+: text := by
        intro text htext hle
        cases htext with
        | inl hleads => rw [hleads.eq_of_length (le_antisymm hleads.length_le hle)]
        | inr hleads => exact hleads
      have hreach : constraint.bytes.length ≤ candidate.length ∧
          constraint.bytes.length ≤ longer.length := by
        cases hlength with
        | inr hboth => exact hboth
        | inl hequal =>
          rcases h with hleads | hleads
          · rcases h' with hleads' | hleads'
            · have hpart := List.prefix_of_prefix_length_le hleads hleads' hequal.le
              exact absurd (hpart.eq_of_length hequal) hsame
            · exact ⟨hequal ▸ hleads'.length_le, hleads'.length_le⟩
          · exact ⟨hleads.length_le, hequal ▸ hleads.length_le⟩
      have hbytes := hshort h hreach.1
      have hbytes' := hshort h' hreach.2
      have hnext : ∀ {text : List UInt8} (next : List UInt8), constraint.bytes <+: text →
          constraint.canContinue (text ++ next) = true := by
        intro text next htext
        unfold canContinue
        rw [if_neg heos, Bool.or_eq_true, List.isPrefixOf_iff_prefix, List.isPrefixOf_iff_prefix]
        exact .inr (htext.trans (List.prefix_append text next))
      refine ⟨fun next => by rw [hnext next hbytes, hnext next hbytes'], ?_⟩
      unfold isSatisfiedBy
      rw [if_neg heos, if_neg heos, List.isPrefixOf_iff_prefix.mpr hbytes,
        List.isPrefixOf_iff_prefix.mpr hbytes']

end BeanKey.Zenz.PrefixConstraint

namespace BeanKey.Lattice
open Input TopK Zenz

structure NoPersonalEntries {unicode : UnicodeTable} (lookups : Lookups unicode)
    (additionalEntries : List DictionaryEntry) : Prop where
  found : ∀ ruby maximumLength, ∀ found ∈ lookups.matchesFromStart ruby maximumLength,
    ∀ entry ∈ found.entries, entry.isPersonal = false
  learned : ∀ ruby maximumLength, ∀ entry ∈ lookups.learnedMatches ruby maximumLength,
    entry.isPersonal = false
  additional : ∀ entry ∈ additionalEntries, entry.isPersonal = false

section
variable {unicode : UnicodeTable} (lookups : Lookups unicode) (context : ConversionContext)
  (lattice : LatticeNodes) (constraint : PrefixConstraint)

def satisfyingPaths (composing : ComposingText) : Set RegisteredPath :=
  { path | path ∈ completePaths lookups context lattice composing ∧
    constraint.isSatisfiedBy (pathBytes path.nodes) = true }

def continuingPaths (node : LatticeNode) : Set RegisteredPath :=
  { path | path ∈ pathsTo lookups context lattice node ∧
    constraint.canContinue (pathBytes path.nodes) = true }

/-- Where more of these meet at a node than it keeps, their texts have one length, or all reach
the end of the constraint. -/
def MeetAlike (nBest : Nat) : Prop :=
  ∀ node, lattice.Has node →
    (continuingPaths lookups context lattice constraint node).encard ≤ nBest ∨
      ∀ path ∈ continuingPaths lookups context lattice constraint node,
        ∀ path' ∈ continuingPaths lookups context lattice constraint node,
          (pathBytes path.nodes).length = (pathBytes path'.nodes).length ∨
            constraint.bytes.length ≤ (pathBytes path.nodes).length ∧
              constraint.bytes.length ≤ (pathBytes path'.nodes).length

end

variable {unicode : UnicodeTable} {tables : InputTableRegistry} {order : HashOrder}
  {composing : ComposingText} {lookups : Lookups unicode} {context : ConversionContext}
  {nBest : Nat} {lattice : LatticeNodes} {constraint : PrefixConstraint}
  {additionalEntries : List DictionaryEntry}

theorem singleCharacterEntries_spec {grapheme : Grapheme} (hgrapheme : grapheme ≠ [])
    {entry : DictionaryEntry} (h : entry ∈ singleCharacterEntries grapheme) :
    entry.word ≠ [] ∧ entry.ruby = grapheme ∧ entry.isPersonal = false := by
  obtain ⟨⟨word, value⟩, hword, rfl⟩ := List.mem_map.mp h
  refine ⟨?_, rfl, rfl⟩
  have hhiragana : toHiragana grapheme ≠ [] := by simpa [toHiragana] using hgrapheme
  split at hword
  · obtain ⟨rfl, -⟩ := Prod.mk.inj (List.mem_singleton.mp hword)
    exact hgrapheme
  · rw [List.mem_cons, List.mem_singleton] at hword
    rcases hword with hword | hword
    · obtain ⟨rfl, -⟩ := Prod.mk.inj hword
      exact hhiragana
    · obtain ⟨rfl, -⟩ := Prod.mk.inj hword
      exact hgrapheme

theorem word_ne_nil_of_kept {entry : DictionaryEntry} (h : shouldRemove unicode entry = false) :
    entry.word ≠ [] := by
  intro hnil
  unfold shouldRemove at h
  dsimp only at h
  rw [hnil] at h
  split at h <;> simp at h

theorem word_ne_nil_of_has
    (hcount : (katakanaGraphemes unicode composing).length = composing.surface.length)
    (hbuild : buildLattice lookups order tables { additionalEntries } composing = some lattice)
    {node : LatticeNode} (hnode : lattice.Has node) : node.entry.word ≠ [] := by
  obtain ⟨start, last, entries, hentries, hentry, -⟩ :=
    mem_surfaceEntries_of_has hcount hbuild hnode
  obtain ⟨grapheme, hgrapheme, hcases⟩ := mem_surfaceEntries hentries hentry
  obtain ⟨_, _, _, hkept, -⟩ | ⟨hin, -⟩ | ⟨-, hfits, -⟩ := hcases
  · exact word_ne_nil_of_kept hkept
  · have hne := ne_nil_of_mem_graphemes unicode (List.mem_of_getElem? hgrapheme)
    exact (singleCharacterEntries_spec hne hin).1
  · simp only [fitsReading, Bool.not_eq_true', Bool.or_eq_false_iff] at hfits
    exact word_ne_nil_of_kept hfits.2

theorem not_personal_of_has
    (hcount : (katakanaGraphemes unicode composing).length = composing.surface.length)
    (hbuild : buildLattice lookups order tables { additionalEntries } composing = some lattice)
    (hplain : NoPersonalEntries lookups additionalEntries) {node : LatticeNode}
    (hnode : lattice.Has node) : node.entry.isPersonal = false := by
  obtain ⟨start, last, entries, hentries, hentry, -⟩ :=
    mem_surfaceEntries_of_has hcount hbuild hnode
  obtain ⟨grapheme, hgrapheme, hcases⟩ := mem_surfaceEntries hentries hentry
  obtain ⟨found, hfound, hin, -⟩ | ⟨hin, -⟩ | ⟨hin | hin, -⟩ := hcases
  · exact hplain.found _ _ found hfound _ hin
  · have hne := ne_nil_of_mem_graphemes unicode (List.mem_of_getElem? hgrapheme)
    exact (singleCharacterEntries_spec hne hin).2.2
  · exact hplain.additional _ hin
  · exact hplain.learned _ _ _ hin

/-! ### What is let through -/

theorem enforcesConstraint_of_plain (hflag : constraint.ignoreMemoryAndUserDictionary = false)
    {entry : DictionaryEntry} (h : entry.isPersonal = false) :
    enforcesConstraint constraint entry = true := by
  rw [DictionaryEntry.isPersonal, Bool.or_eq_false_iff] at h
  simp [enforcesConstraint, hflag, h.1, h.2]

/-- Where every part is checked, a path is let through exactly when its joined text can go on. -/
theorem allowed_iff (hflag : constraint.ignoreMemoryAndUserDictionary = false)
    {nodes : List LatticeNode} (hplain : ∀ node ∈ nodes, node.entry.isPersonal = false) :
    Allowed (some constraint) nodes ↔ constraint.canContinue (pathBytes nodes) = true := by
  induction nodes with
  | nil => simp [Allowed, pathBytes, PrefixConstraint.canContinue]
  | cons node before ih =>
    obtain ⟨hnode, hbefore⟩ := List.forall_mem_cons.mp hplain
    have hchecked : allowsPath (some constraint) node.entry ⟨node :: before, 0⟩ =
        constraint.canContinue (pathBytes (node :: before)) := by
      rw [allowsPath, Option.all_some, if_pos (enforcesConstraint_of_plain hflag hnode)]
    rw [Allowed, ih hbefore, hchecked, pathBytes_cons]
    exact ⟨And.right, fun h =>
      ⟨PrefixConstraint.canContinue_of_prefix (List.prefix_append _ _) h, h⟩⟩

section
variable (hflag : constraint.ignoreMemoryAndUserDictionary = false)
  (hplain : ∀ node, lattice.Has node → node.entry.isPersonal = false)
include hflag hplain

theorem allowedTo_eq (node : LatticeNode) :
    allowedTo lookups context lattice (some constraint) node =
      continuingPaths lookups context lattice constraint node := by
  ext path
  apply and_congr_right
  intro hpath
  exact allowed_iff hflag fun other hother => hplain other (hpath.1.has_all other hother)

theorem allowsResult_eq {node : LatticeNode} (hnode : lattice.Has node) (path : RegisteredPath) :
    allowsResult (some constraint) node.entry path =
      constraint.isSatisfiedBy (pathBytes path.nodes) := by
  rw [allowsResult, Option.all_some,
    if_pos (enforcesConstraint_of_plain hflag (hplain node hnode))]

theorem acceptedPaths_eq :
    acceptedPaths lookups context lattice (some constraint) composing =
      satisfyingPaths lookups context lattice constraint composing := by
  ext path
  apply and_congr_right
  intro hpath
  obtain ⟨node, before, hnodes, hnode⟩ := hpath.1.1.exists_last
  have hresult : allowsResult (some constraint) node.entry path =
      constraint.isSatisfiedBy (pathBytes path.nodes) := allowsResult_eq hflag hplain hnode path
  have hpart := allowed_iff hflag fun other hother => hplain other (hpath.1.1.has_all other hother)
  constructor
  · rintro ⟨-, hlast⟩
    rw [← hresult]
    exact hlast node (by rw [hnodes]; rfl)
  · intro hsatisfied
    refine ⟨hpart.mpr (PrefixConstraint.canContinue_of_satisfied hsatisfied), ?_⟩
    intro last hhead
    rw [hnodes] at hhead
    obtain rfl : node = last := Option.some.inj hhead
    rw [hresult, hsatisfied]

theorem interchangeable_of_meetAlike
    (hmeet : MeetAlike lookups context lattice constraint nBest) :
    Interchangeable lookups context lattice (some constraint) nBest := by
  intro node hnode
  rw [allowedTo_eq hflag hplain]
  cases hmeet node hnode with
  | inl hfew => exact .inl hfew
  | inr hlengths =>
    refine .inr fun path hpath path' hpath' => ?_
    obtain ⟨hnext, hsatisfied⟩ := PrefixConstraint.alike_of_canContinue hpath.2 hpath'.2
      (hlengths path hpath path' hpath')
    constructor
    · intro next hnextHas
      have henforced := enforcesConstraint_of_plain hflag (hplain next hnextHas)
      unfold allowsNext
      rw [Option.all_some, Option.all_some]
      dsimp only
      rw [if_pos henforced, if_pos henforced, hnext]
    · rw [allowsResult_eq hflag hplain hnode, allowsResult_eq hflag hplain hnode, hsatisfied]

end

/-! ### The search for the best -/

/-- Without personal entries the conversion returns satisfying candidates only, and among them
the text of a best satisfying path where the paths that meet are alike. -/
theorem convert_finds_best (hc : composing.surface = convertElements tables composing.input)
    (hcount : (graphemes unicode composing.surfaceText).length = composing.surface.length)
    (hn : 0 < nBest) (hplain : NoPersonalEntries lookups additionalEntries)
    (hflag : constraint.ignoreMemoryAndUserDictionary = false) (context : ConversionContext)
    (meaningCost : Nat → Nat → ℚ) (order : HashOrder) :
    ∃ lattice results candidates,
      buildLattice lookups order tables { additionalEntries } composing = some lattice ∧
      latticeResults lookups context nBest order tables
        { additionalEntries, constraint := some constraint } composing = some results ∧
      convert lookups meaningCost context nBest order tables
        { additionalEntries, constraint := some constraint } composing = some candidates ∧
      (∀ candidate ∈ candidates, constraint.isSatisfiedBy (utf8 candidate.text) = true) ∧
      (MeetAlike lookups context lattice constraint nBest →
        (satisfyingPaths lookups context lattice constraint composing).Nonempty →
        ∃ path ∈ results, path ∈ satisfyingPaths lookups context lattice constraint composing ∧
          (∀ other ∈ satisfyingPaths lookups context lattice constraint composing,
            other.total ≤ path.total) ∧
          ∃ candidate ∈ candidates,
            candidate.text = (makeCandidate lookups meaningCost context path).text) := by
  rw [← katakanaGraphemes_length] at hcount
  obtain ⟨lattice, hbuild, -⟩ : ∃ lattice,
      buildLattice lookups order tables { additionalEntries } composing = some lattice ∧
        LatticeWithin composing lattice := buildLattice_within hcount
  obtain ⟨results, hresults⟩ : ∃ results, latticeResults lookups context nBest order tables
      { additionalEntries, constraint := some constraint } composing = some results :=
    latticeResults_total hc hcount
  obtain ⟨candidates, hconvert⟩ : ∃ candidates, convert lookups meaningCost context nBest order
      tables { additionalEntries, constraint := some constraint } composing = some candidates := by
    rw [convert, hresults]
    exact ⟨_, rfl⟩
  have hentries : ∀ node, lattice.Has node → node.entry.isPersonal = false :=
    fun node hnode => not_personal_of_has hcount hbuild hplain hnode
  refine ⟨lattice, results, candidates, hbuild, hresults, hconvert, ?_, ?_⟩
  · intro candidate hin
    obtain ⟨_, node, hsame, hnode, -, hallowed⟩ := convert_allowed hconvert hin rfl
    obtain rfl := Option.some.inj (hbuild.symm.trans hsame)
    rwa [if_pos (enforcesConstraint_of_plain hflag (hentries node hnode))] at hallowed
  · rintro hmeet ⟨one, hone⟩
    obtain ⟨_, hsame, hsub, hbest⟩ := constrained_exact hc hcount hn hbuild
      (interchangeable_of_meetAlike hflag hentries hmeet)
    obtain rfl := Option.some.inj (hresults.symm.trans hsame)
    rw [acceptedPaths_eq hflag hentries] at hsub hbest
    obtain ⟨kept, hkept, htop⟩ := hbest 1 hn
    obtain ⟨path, hpath, hgreatest⟩ := htop.exists_best hone
    have hin := hkept.subset hpath
    have hsatisfying := hsub path hin
    refine ⟨path, hin, hsatisfying, hgreatest, exists_convert hconvert hresults hin ?_⟩
    obtain ⟨node, before, hnodes, hnode⟩ := hsatisfying.1.1.1.exists_last
    have hword := word_ne_nil_of_has hcount hbuild hnode
    rw [makeCandidate_text, hnodes, List.reverse_cons, List.flatMap_append]
    simp [hword]

/-- Paths over words that each reach the end of the constraint are alike wherever they meet. -/
theorem meetAlike_of_words
    (hwords : ∀ node, lattice.Has node → constraint.bytes.length ≤ (utf8 node.entry.word).length) :
    MeetAlike lookups context lattice constraint nBest := by
  have hreach : ∀ node, ∀ path ∈ continuingPaths lookups context lattice constraint node,
      constraint.bytes.length ≤ (pathBytes path.nodes).length := by
    rintro node ⟨nodes, total⟩ ⟨⟨hpath, -, -⟩, -⟩
    obtain ⟨last, before, rfl, hlast⟩ := hpath.exists_last
    refine (hwords last hlast).trans ?_
    simp [pathBytes]
  exact fun node _ => .inr fun path hpath path' hpath' =>
    .inr ⟨hreach node path hpath, hreach node path' hpath'⟩

/-! ### Predecessors that give way -/

/-- The words `あ` and `ああ` for `カ`, the longer one of less value, and `あ` for `ナ`. -/
def Lookups.repeating : Lookups .kana where
  matchesFromStart ruby maximumLength :=
    if maximumLength = 0 then []
    else if ruby.take 1 = ['カ'] ∧ 0 < (graphemes .kana ruby).length then
      [⟨1, [{ wordEntry ['あ'] with baseValue := -1 },
        { wordEntry ['あ', 'あ'] with baseValue := -5 }]⟩]
    else if ruby = ['ナ'] then [⟨1, [{ wordEntry ['あ'] with ruby := ['ナ'], baseValue := -1 }]⟩]
    else []
  matches_within := by
    intro ruby maximumLength found hfound
    split at hfound
    · exact absurd hfound List.not_mem_nil
    · split at hfound
      · next hpos hasked =>
        obtain rfl := List.mem_singleton.mp hfound
        exact ⟨Nat.one_pos, le_min (Nat.pos_of_ne_zero hpos) hasked.2⟩
      · split at hfound
        · next hpos _ hasked =>
          obtain rfl := List.mem_singleton.mp hfound
          rw [hasked]
          exact ⟨Nat.one_pos, le_min (Nat.pos_of_ne_zero hpos) (le_refl 1)⟩
        · exact absurd hfound List.not_mem_nil
  exactMatch _ := []
  connectionCost _ _ := 0
  learnedMatches _ _ := []
  learnedExact _ := []

def repeatingPath : List LatticeNode :=
  [⟨(.surface 1, 0), { wordEntry ['あ'] with ruby := ['ナ'], baseValue := -1 }, .surface 1 2⟩,
    ⟨(.surface 0, 1), { wordEntry ['あ', 'あ'] with baseValue := -5 }, .surface 0 1⟩]

theorem repeatingPath_complete {lattice : LatticeNodes}
    (hbuild : buildLattice Lookups.repeating .identity endingTables {} pairText = some lattice) :
    lattice.IsComplete pairText repeatingPath := by
  refine ⟨.step (has_of_column hbuild 1 (by decide +kernel) (by decide +kernel)) rfl
    (.start (has_of_column hbuild 0 (by decide +kernel) (by decide +kernel)) rfl), _, _, rfl, by
      decide +kernel⟩

theorem repeating_none :
    latticeResults Lookups.repeating {} 1 .identity endingTables
      { constraint := some { bytes := utf8 ['あ', 'あ', 'あ'] } } pairText = some [] := by
  decide +kernel

theorem repeating_plain : NoPersonalEntries Lookups.repeating [] := by
  refine ⟨?_, fun _ _ _ hin => absurd hin List.not_mem_nil,
    fun _ hin => absurd hin List.not_mem_nil⟩
  intro ruby maximumLength found hfound entry hentry
  simp only [Lookups.repeating] at hfound
  split at hfound
  · exact absurd hfound List.not_mem_nil
  · split at hfound
    · obtain rfl := List.mem_singleton.mp hfound
      simp only [List.mem_cons, List.not_mem_nil, or_false] at hentry
      rcases hentry with rfl | rfl <;> rfl
    · split at hfound
      · obtain rfl := List.mem_singleton.mp hfound
        obtain rfl := List.mem_singleton.mp hentry
        rfl
      · exact absurd hfound List.not_mem_nil

def repeatedPath : List LatticeNode :=
  [⟨(.surface 1, 0), { wordEntry ['あ'] with ruby := ['ナ'], baseValue := -1 }, .surface 1 2⟩,
    ⟨(.surface 0, 0), { wordEntry ['あ'] with baseValue := -1 }, .surface 0 1⟩]

/-- `あ` and `ああ` meet at the second `あ`, which keeps the better of them. -/
theorem convert_finds_repeated :
    ∃ lattice results candidates,
      buildLattice Lookups.repeating .identity endingTables {} pairText = some lattice ∧
      latticeResults Lookups.repeating {} 1 .identity endingTables
        { constraint := some { bytes := utf8 ['あ'] } } pairText = some results ∧
      convert Lookups.repeating (fun _ _ => 0) {} 1 .identity endingTables
        { constraint := some { bytes := utf8 ['あ'] } } pairText = some candidates ∧
      ∃ path ∈ results,
        (∀ other ∈ satisfyingPaths Lookups.repeating {} lattice { bytes := utf8 ['あ'] } pairText,
          other.total ≤ path.total) ∧
        ∃ candidate ∈ candidates,
          candidate.text = (makeCandidate Lookups.repeating (fun _ _ => 0) {} path).text := by
  have hcount : (graphemes .kana pairText.surfaceText).length = pairText.surface.length := by
    decide +kernel
  obtain ⟨lattice, results, candidates, hbuild, hresults, hconvert, -, hbest⟩ :=
    @convert_finds_best .kana endingTables pairText Lookups.repeating 1 { bytes := utf8 ['あ'] } []
      (by decide +kernel) hcount Nat.one_pos repeating_plain rfl {} (fun _ _ => 0) .identity
  have hwords : ∀ node, lattice.Has node → 3 ≤ (utf8 node.entry.word).length := by
    intro node hnode
    obtain ⟨start, last, entries, hentries, hentry, -⟩ :=
      mem_surfaceEntries_of_has (katakanaGraphemes_length.trans hcount) hbuild hnode
    have hall : ∀ start < 2, ∀ entries ∈ surfaceEntries Lookups.repeating [] 2
        (katakanaGraphemes .kana pairText) start,
          ∀ pair ∈ entries, 3 ≤ (utf8 pair.1.word).length := by decide +kernel
    have hlt : start < 2 := by
      obtain ⟨_, hgrapheme, -⟩ := mem_surfaceEntries hentries hentry
      exact (List.getElem?_eq_some_iff.mp hgrapheme).1
    exact hall start hlt entries hentries (node.entry, last) hentry
  have hpath : lattice.IsComplete pairText repeatedPath :=
    ⟨.step (has_of_column hbuild 1 (by decide +kernel) (by decide +kernel)) rfl
      (.start (has_of_column hbuild 0 (by decide +kernel) (by decide +kernel)) rfl), _, _, rfl,
      by decide +kernel⟩
  obtain ⟨path, hin, -, hgreatest, hfound⟩ := hbest (meetAlike_of_words hwords)
    ⟨⟨repeatedPath, pathTotal Lookups.repeating {} repeatedPath⟩, ⟨hpath, rfl⟩, by decide +kernel⟩
  exact ⟨lattice, results, candidates, hbuild, hresults, hconvert, path, hin, hgreatest, hfound⟩

/-- The better `あ` takes the place of `ああ`, and nothing reaches `あああ`. -/
theorem convert_misses_satisfying :
    ¬∀ (unicode : UnicodeTable) (tables : InputTableRegistry) (composing : ComposingText),
      composing.surface = convertElements tables composing.input →
      (graphemes unicode composing.surfaceText).length = composing.surface.length →
      ∀ (lookups : Lookups unicode) (meaningCost : Nat → Nat → ℚ) (context : ConversionContext)
        (nBest : Nat) (order : HashOrder) (additionalEntries : List DictionaryEntry)
        (constraint : PrefixConstraint) (lattice : LatticeNodes) (candidates : List Candidate),
        0 < nBest → NoPersonalEntries lookups additionalEntries →
        constraint.ignoreMemoryAndUserDictionary = false →
        buildLattice lookups order tables { additionalEntries } composing = some lattice →
        convert lookups meaningCost context nBest order tables
          { additionalEntries, constraint := some constraint } composing = some candidates →
        (satisfyingPaths lookups context lattice constraint composing).Nonempty →
        ∃ candidate ∈ candidates, constraint.isSatisfiedBy (utf8 candidate.text) = true := by
  intro hall
  have hcount : (graphemes .kana pairText.surfaceText).length = pairText.surface.length := by
    decide +kernel
  obtain ⟨lattice, hbuild, -⟩ : ∃ lattice,
      buildLattice Lookups.repeating .identity endingTables {} pairText = some lattice ∧
        LatticeWithin pairText lattice :=
    buildLattice_within (katakanaGraphemes_length.trans hcount)
  have hconvert : convert Lookups.repeating (fun _ _ => 0) {} 1 .identity endingTables
      { constraint := some { bytes := utf8 ['あ', 'あ', 'あ'] } } pairText = some [] := by
    rw [convert, repeating_none]
    simp [uniqueCandidates, sortByValue]
  obtain ⟨candidate, hin, -⟩ := hall .kana endingTables pairText (by decide +kernel) hcount
    Lookups.repeating (fun _ _ => 0) {} 1 .identity [] { bytes := utf8 ['あ', 'あ', 'あ'] } lattice []
    Nat.one_pos repeating_plain rfl hbuild hconvert
    ⟨⟨repeatingPath, pathTotal Lookups.repeating {} repeatingPath⟩,
      ⟨repeatingPath_complete hbuild, rfl⟩, by decide +kernel⟩
  exact absurd hin List.not_mem_nil

end BeanKey.Lattice
