import BeanKey.Input.Complete
import BeanKey.Lattice.Sound
import BeanKey.Lattice.Satisfying

/-! Conservation of the reading: what the entries of a candidate read, and what selecting it
leaves, are the reading of the text. -/
namespace BeanKey.Input.ComposingText
variable {tables : InputTableRegistry}

theorem completePrefix_surface (text : ComposingText) (count : Nat) :
    (text.completePrefix tables (.surface count)).surface = text.surface.drop count := by
  show ((text.forceInputCursor tables _).1.surface.drop _) = _
  rw [forceInputCursor_surface]
  by_cases hle : count ≤ text.surface.length
  · rw [Nat.min_eq_left hle]
  · rw [Nat.min_eq_right (by omega), List.drop_length, List.drop_of_length_le (by omega)]

theorem completePrefix_all {text : ComposingText} (hne : text.surface ≠ []) :
    (text.completePrefix tables (.surface text.surface.length)).input = [] := by
  have hpos := List.length_pos_iff.mpr hne
  simp only [completePrefix, Nat.min_self, forceInputCursor]
  rw [if_neg hpos.ne', if_pos le_rfl, List.drop_length]

end BeanKey.Input.ComposingText

namespace BeanKey.Lattice
open Input TopK Zenz

def reading (composing : ComposingText) : Text := toKatakana composing.surfaceText

def rubyText (entries : List DictionaryEntry) : Text := entries.flatMap DictionaryEntry.ruby

/-- Every entry of the dictionary carries the key it was looked up by. -/
def Keyed {unicode : UnicodeTable} (lookups : Lookups unicode) : Prop :=
  ∀ ruby maximumLength, ∀ found ∈ lookups.matchesFromStart ruby maximumLength,
    ∀ entry ∈ found.entries, entry.ruby = ((graphemes unicode ruby).take found.surfaceEnd).flatten

/-- Wherever a user or learned entry stands in the reading, it ends with a grapheme of it. -/
def EntriesAligned {unicode : UnicodeTable} (lookups : Lookups unicode)
    (additionalEntries : List DictionaryEntry) (composing : ComposingText) : Prop :=
  ∀ start entry, (entry ∈ additionalEntries ∨ entry ∈ lookups.learnedMatches
      ((katakanaGraphemes unicode composing).drop start).flatten maximumDictionaryLength) →
    entry.ruby <+: ((katakanaGraphemes unicode composing).drop start).flatten →
    graphemes unicode entry.ruby <+: (katakanaGraphemes unicode composing).drop start

variable {unicode : UnicodeTable} {tables : InputTableRegistry} {order : HashOrder}
  {composing : ComposingText} {lookups : Lookups unicode} {context : ConversionContext}
  {nBest : Nat} {lattice : LatticeNodes} {constraint : Option PrefixConstraint}
  {additionalEntries : List DictionaryEntry} {meaningCost : Nat → Nat → ℚ}

theorem flatten_katakanaGraphemes : (katakanaGraphemes unicode composing).flatten =
    reading composing := flatten_graphemes unicode _

theorem katakanaGraphemes_eq
    (hsurface : composing.surface = graphemes unicode composing.surfaceText) :
    katakanaGraphemes unicode composing = composing.surface.map toKatakana := by
  rw [katakanaGraphemes, graphemes_toKatakana, ← hsurface]

/-! ### What a node reads -/

theorem ruby_of_has (hkeyed : Keyed lookups)
    (haligned : EntriesAligned lookups additionalEntries composing)
    (hcount : (katakanaGraphemes unicode composing).length = composing.surface.length)
    (hbuild : buildLattice lookups order tables { additionalEntries } composing = some lattice)
    {node : LatticeNode} (hnode : lattice.Has node) :
    ∃ start last, node.slot.1 = .surface start ∧ node.range = .surface start last ∧
      start < last ∧
      node.entry.ruby = (((katakanaGraphemes unicode composing).drop start).take
        (last - start)).flatten := by
  obtain ⟨start, last, entries, hentries, hentry, hrange, hslot⟩ :=
    mem_surfaceEntries_of_has hcount hbuild hnode
  have hlt := (surfaceEntries_end hcount hentries hentry).1
  refine ⟨start, last, hslot, hrange, hlt, ?_⟩
  obtain ⟨grapheme, hgrapheme, hcases⟩ := mem_surfaceEntries hentries hentry
  obtain ⟨found, hfound, hin, -, hlast⟩ | ⟨hin, hlast⟩ | ⟨hin, hfits, hlast⟩ := hcases
  · rw [hkeyed _ _ found hfound _ hin, graphemes_suffix, hlast, Nat.add_sub_cancel_left]
  · have hne := ne_nil_of_mem_graphemes unicode (List.mem_of_getElem? hgrapheme)
    obtain ⟨hstart, rfl⟩ := List.getElem?_eq_some_iff.mp hgrapheme
    rw [(singleCharacterEntries_spec hne hin).2.1, hlast, Nat.add_sub_cancel_left,
      List.drop_eq_getElem_cons hstart, List.take_succ_cons, List.take_zero, List.flatten_singleton]
  · simp only [fitsReading, Bool.not_eq_true', Bool.or_eq_false_iff, Bool.not_eq_false'] at hfits
    have hleads := List.isPrefixOf_iff_prefix.mp hfits.1.2
    have hwhole := List.prefix_iff_eq_take.mp (haligned start node.entry hin hleads)
    rw [hlast, Nat.add_sub_cancel_left, ← hwhole, flatten_graphemes]

/-- A path reads the text up to its end, and its ranges count up to there. -/
structure PathReads (katakana : List Grapheme) (nodes : List LatticeNode) (last : Nat) : Prop where
  ruby : rubyText (nodes.reverse.map LatticeNode.entry) = (katakana.take last).flatten
  count : countOf (nodes.reverse.map LatticeNode.range) = .surface last

theorem pathReads (hkeyed : Keyed lookups)
    (haligned : EntriesAligned lookups additionalEntries composing)
    (hcount : (katakanaGraphemes unicode composing).length = composing.surface.length)
    (hbuild : buildLattice lookups order tables { additionalEntries } composing = some lattice)
    {nodes : List LatticeNode} (hpath : lattice.IsPath nodes) :
    ∃ last, nodes.head?.map (fun node => node.range.endIndex) = some (.surface last) ∧
      PathReads (katakanaGraphemes unicode composing) nodes last := by
  induction hpath with
  | @start node hnode hzero =>
    obtain ⟨start, last, -, hrange, -, hruby⟩ := ruby_of_has hkeyed haligned hcount hbuild hnode
    rw [hrange] at hzero
    obtain rfl : start = 0 := of_decide_eq_true hzero
    refine ⟨last, by rw [List.head?_cons, Option.map_some, hrange]; rfl, ?_, ?_⟩
    · simpa [rubyText] using hruby
    · simp [countOf, hrange, LatticeRange.count]
  | @step node last before hnode hmeet hpath ih =>
    obtain ⟨stop, hend, hreads⟩ := ih
    obtain ⟨start, next, hslot, hrange, hlt, hruby⟩ :=
      ruby_of_has hkeyed haligned hcount hbuild hnode
    rw [List.head?_cons, Option.map_some, hmeet, hslot] at hend
    obtain rfl : start = stop := LatticeIndex.surface.inj (Option.some.inj hend)
    refine ⟨next, by rw [List.head?_cons, Option.map_some, hrange]; rfl, ?_, ?_⟩
    · have hbefore := hreads.ruby
      rw [rubyText] at hbefore ⊢
      rw [List.reverse_cons, List.map_append, List.flatMap_append, hbefore]
      have htake : (katakanaGraphemes unicode composing).take (start + (next - start)) = _ :=
        List.take_add
      rw [Nat.add_sub_cancel' hlt.le] at htake
      rw [htake, List.flatten_append, ← hruby]
      simp
    · rw [List.reverse_cons, List.map_append, List.map_singleton,
        countOf_concat (by simp), hreads.count, hrange, LatticeRange.count, combineCounts,
        Nat.add_sub_cancel' hlt.le]

theorem LatticeNodes.IsPath.of_append {after before : List LatticeNode}
    (h : lattice.IsPath (after ++ before)) (hne : before ≠ []) : lattice.IsPath before := by
  induction after with
  | nil => exact h
  | cons node after ih =>
    apply ih
    cases hrest : after ++ before with
    | nil => exact absurd (List.append_eq_nil_iff.mp hrest).2 hne
    | cons last rest =>
      rw [List.cons_append, hrest] at h
      cases h with
      | step _ _ hpath => exact hpath

/-! ### What selecting a candidate leaves -/

/-- What the candidate reads and what it leaves are the reading of the text. -/
structure Splits (unicode : UnicodeTable) (tables : InputTableRegistry) (composing : ComposingText)
    (candidate : Candidate) : Prop where
  counts : candidate.composingCount.countsSurface = true
  reading : reading composing = rubyText candidate.entries ++
    reading (composing.completePrefix tables candidate.composingCount)
  graphemes : (composing.completePrefix tables candidate.composingCount).surface =
    graphemes unicode (composing.completePrefix tables candidate.composingCount).surfaceText

theorem splits_of_reads (hsurface : composing.surface = graphemes unicode composing.surfaceText)
    {nodes : List LatticeNode} {last : Nat}
    (hreads : PathReads (katakanaGraphemes unicode composing) nodes last) {candidate : Candidate}
    (hentries : candidate.entries = nodes.reverse.map LatticeNode.entry)
    (hcount : candidate.composingCount = countOf (nodes.reverse.map LatticeNode.range)) :
    Splits unicode tables composing candidate := by
  rw [hreads.count] at hcount
  have hrest : (composing.completePrefix tables candidate.composingCount).surface =
      composing.surface.drop last := by
    rw [hcount, ComposingText.completePrefix_surface]
  refine ⟨by rw [hcount]; rfl, ?_, ?_⟩
  · have hleft : Lattice.reading (composing.completePrefix tables candidate.composingCount) =
        ((katakanaGraphemes unicode composing).drop last).flatten := by
      rw [Lattice.reading, ComposingText.surfaceText, hrest, katakanaGraphemes_eq hsurface,
        ← List.map_drop, toKatakana, List.map_flatten]
      rfl
    rw [hentries, hreads.ruby, hleft, ← List.flatten_append, List.take_append_drop]
    exact flatten_katakanaGraphemes.symm
  · have hdrop := graphemes_drop unicode composing.surfaceText last
    rw [← hsurface] at hdrop
    rw [ComposingText.surfaceText, hrest, hdrop]

/-- A complete candidate reads the whole text and leaves nothing of it; its first clause reads a
part of it and leaves what the other clauses read. -/
structure Conserves (unicode : UnicodeTable) (tables : InputTableRegistry)
    (composing : ComposingText) (candidate : Candidate) : Prop where
  whole : rubyText candidate.entries = reading composing
  nothing : (composing.completePrefix tables candidate.composingCount).surface = [] ∧
    (composing.completePrefix tables candidate.composingCount).input = []
  first : ∀ first, candidate.firstClauseCandidate unicode = some first →
    rubyText first.entries <+: reading composing ∧
      ∃ dropped, candidate.entries = first.entries ++ dropped ∧
        reading (composing.completePrefix tables first.composingCount) = rubyText dropped

/-- Where the text has not drifted and every entry reads whole graphemes, a returned candidate
conserves the reading, and selecting it or its first clause splits the reading. -/
theorem convert_conserves (hc : composing.surface = convertElements tables composing.input)
    (hsurface : composing.surface = graphemes unicode composing.surfaceText)
    (hkeyed : Keyed lookups) (haligned : EntriesAligned lookups additionalEntries composing)
    {candidates : List Candidate}
    (hconvert : convert lookups meaningCost context nBest order tables
      { additionalEntries, constraint } composing = some candidates)
    {candidate : Candidate} (hin : candidate ∈ candidates) :
    Conserves unicode tables composing candidate ∧ Splits unicode tables composing candidate ∧
      ∀ first, candidate.firstClauseCandidate unicode = some first →
        Splits unicode tables composing first := by
  have hcount : (katakanaGraphemes unicode composing).length = composing.surface.length := by
    rw [katakanaGraphemes_eq hsurface, List.length_map]
  obtain ⟨-, results, path, hresults, hpath, rfl⟩ := mem_convert hconvert hin
  obtain ⟨lattice, -, hbuild, -⟩ := latticeResults_allowed hresults hpath
  obtain ⟨hispath, node, before, hnodes, hend⟩ :=
    latticeResults_complete hc hcount hbuild hresults path hpath
  have hreads : PathReads (katakanaGraphemes unicode composing) path.nodes
      composing.surface.length := by
    obtain ⟨last, hlast, hreads⟩ := pathReads hkeyed haligned hcount hbuild hispath
    rw [hnodes, List.head?_cons, Option.map_some, hend] at hlast
    rwa [LatticeIndex.surface.inj (Option.some.inj hlast)]
  have hsplits : Splits unicode tables composing
      (makeCandidate lookups meaningCost context path) :=
    splits_of_reads hsurface hreads (makeCandidate_entries path) (makeCandidate_count path)
  have hfirst : ∀ first,
      (makeCandidate lookups meaningCost context path).firstClauseCandidate unicode = some first →
      Splits unicode tables composing first ∧ ∃ dropped,
        (makeCandidate lookups meaningCost context path).entries = first.entries ++ dropped := by
    intro first hfirst
    obtain ⟨after, taken, hparts, hne, hentries, hranges⟩ :=
      firstClauseCandidate_spec (by rw [hnodes]; exact List.cons_ne_nil _ _) hfirst
    have htaken : lattice.IsPath taken := by
      rw [hparts] at hispath
      exact hispath.of_append hne
    obtain ⟨last, -, hpart⟩ := pathReads hkeyed haligned hcount hbuild htaken
    refine ⟨splits_of_reads hsurface hpart hentries hranges,
      after.reverse.map LatticeNode.entry, ?_⟩
    rw [makeCandidate_entries, hparts, List.reverse_append, List.map_append, hentries]
  have hwhole : rubyText (makeCandidate lookups meaningCost context path).entries =
      reading composing := by
    rw [makeCandidate_entries, hreads.ruby, ← hcount, List.take_length]
    exact flatten_katakanaGraphemes
  have hnonempty : composing.surface ≠ [] := by
    obtain ⟨start, last, -, -, hlt, hle, -⟩ := (buildLattice_surfaceLattice hcount hbuild).has_spec
      (hispath.has_all node (by rw [hnodes]; exact List.mem_cons_self))
    exact List.ne_nil_of_length_pos (by omega)
  refine ⟨⟨hwhole, ?_, ?_⟩, hsplits, fun first h => (hfirst first h).1⟩
  · rw [makeCandidate_count, hreads.count]
    exact ⟨by rw [ComposingText.completePrefix_surface, List.drop_length],
      ComposingText.completePrefix_all hnonempty⟩
  · intro first h
    obtain ⟨hsplit, dropped, hdropped⟩ := hfirst first h
    refine ⟨⟨_, hsplit.reading.symm⟩, dropped, hdropped, ?_⟩
    rw [hdropped, rubyText, List.flatMap_append] at hwhole
    exact (List.append_cancel_left (hwhole.trans hsplit.reading)).symm

/-! ### Selections in a row -/

/-- Selections of complete candidates and first clauses, each from a conversion of what the last
one left, with what they read. -/
inductive Selected (unicode : UnicodeTable) (tables : InputTableRegistry)
    (composing : ComposingText) : Text → ComposingText → Prop
  | none : Selected unicode tables composing [] composing
  | select {rubies : Text} {left : ComposingText} {lookups : Lookups unicode}
      {meaningCost : Nat → Nat → ℚ} {context : ConversionContext} {nBest : Nat} {order : HashOrder}
      {additionalEntries : List DictionaryEntry} {constraint : Option PrefixConstraint}
      {candidates : List Candidate} {candidate selected : Candidate} :
      Selected unicode tables composing rubies left →
      Keyed lookups → EntriesAligned lookups additionalEntries left →
      convert lookups meaningCost context nBest order tables
        { additionalEntries, constraint } left =
        some candidates →
      candidate ∈ candidates →
      (selected = candidate ∨ candidate.firstClauseCandidate unicode = some selected) →
      Selected unicode tables composing (rubies ++ rubyText selected.entries)
        (left.completePrefix tables selected.composingCount)

theorem selected_conserves (hwell : composing.WellFormed tables)
    (hsurface : composing.surface = graphemes unicode composing.surfaceText) {rubies : Text}
    {left : ComposingText} (h : Selected unicode tables composing rubies left) :
    reading composing = rubies ++ reading left ∧ left.WellFormed tables ∧
      left.surface = graphemes unicode left.surfaceText := by
  induction h with
  | none => exact ⟨rfl, hwell, hsurface⟩
  | @select rubies left _ _ _ _ _ _ _ _ candidate selected _ hkeyed haligned hconvert hin
      hselected ih =>
    obtain ⟨hreading, hleft, hgraphemes⟩ := ih
    obtain ⟨-, hwhole, hfirst⟩ :=
      convert_conserves hleft.coherent.surface hgraphemes hkeyed haligned hconvert hin
    have hsplits : Splits unicode tables left selected := by
      cases hselected with
      | inl hsame => rwa [hsame]
      | inr hclause => exact hfirst selected hclause
    refine ⟨?_, ComposingText.completePrefix_wellFormed _ hsplits.counts hleft, hsplits.graphemes⟩
    rw [hreading, hsplits.reading, List.append_assoc]

/-- In every text that is reached without an insertion into hidden input, conversions and
selections in a row conserve the reading. -/
theorem reading_conserved (unicode : UnicodeTable) (tables : InputTableRegistry)
    (composing : ComposingText)
    (hreached : ComposingText.Reached unicode tables (fun text edit =>
      ComposingText.InsertsQuietly unicode tables edit ∧ text.InsertsVisibly unicode edit)
        composing)
    (hsurface : composing.surface = graphemes unicode composing.surfaceText) :
    (∀ (lookups : Lookups unicode) (meaningCost : Nat → Nat → ℚ) (context : ConversionContext)
        (nBest : Nat) (order : HashOrder) (additionalEntries : List DictionaryEntry)
        (constraint : Option PrefixConstraint) (candidates : List Candidate),
        Keyed lookups → EntriesAligned lookups additionalEntries composing →
        convert lookups meaningCost context nBest order tables { additionalEntries, constraint }
          composing = some candidates →
        ∀ candidate ∈ candidates, Conserves unicode tables composing candidate) ∧
      ∀ rubies left, Selected unicode tables composing rubies left →
        reading composing = rubies ++ reading left := by
  have hwell := hreached.wellFormed fun _ _ hallowed => hallowed
  constructor
  · intro lookups meaningCost context nBest order additionalEntries constraint candidates hkeyed
      haligned hconvert candidate hin
    exact (convert_conserves hwell.coherent.surface hsurface hkeyed haligned hconvert hin).1
  · intro rubies left hselected
    exact (selected_conserves hwell hsurface hselected).1

theorem keyed_empty (unicode : UnicodeTable) : Keyed (.empty unicode) :=
  fun _ _ _ hin => absurd hin List.not_mem_nil

def kaEntry : DictionaryEntry :=
  { word := ['蚊'], ruby := ['カ'], leftId := 1285, rightId := 1285, meaningId := 501, baseValue := -5
    metadata := { userDictionary := true } }

def Lookups.flower : Lookups .kana where
  matchesFromStart ruby maximumLength :=
    if (graphemes .kana ruby).take 2 = [['ハ'], ['ナ']] ∧
        2 ≤ min maximumLength (graphemes .kana ruby).length then
      [⟨2, [{ word := ['花'], ruby := ['ハ', 'ナ'], leftId := 1285, rightId := 1285, meaningId := 501
              baseValue := -8 }]⟩]
    else []
  matches_within := by
    intro ruby maximumLength found hfound
    split at hfound
    · next hasked =>
      obtain rfl := List.mem_singleton.mp hfound
      exact ⟨Nat.two_pos, hasked.2⟩
    · exact absurd hfound List.not_mem_nil
  exactMatch _ := []
  connectionCost _ _ := 0
  learnedMatches _ _ := []
  learnedExact _ := []

theorem keyed_flower : Keyed Lookups.flower := by
  intro ruby maximumLength found hfound entry hentry
  simp only [Lookups.flower] at hfound
  split at hfound
  · next hasked =>
    obtain rfl := List.mem_singleton.mp hfound
    obtain rfl := List.mem_singleton.mp hentry
    rw [hasked.1]
    rfl
  · exact absurd hfound List.not_mem_nil

/-- A candidate with a text that a kept path has; each path with that text passes the check. -/
theorem exists_candidate {modifiers : ConversionModifiers} {text : Text} {check : Candidate → Bool}
    (hne : text ≠ [])
    (h : (latticeResults lookups context nBest order tables modifiers composing).any (fun results =>
      results.any (fun path => (makeCandidate lookups meaningCost context path).text = text) &&
        results.all fun path => (makeCandidate lookups meaningCost context path).text ≠ text ||
          check (makeCandidate lookups meaningCost context path)) = true) :
    ∃ candidates, convert lookups meaningCost context nBest order tables modifiers composing =
      some candidates ∧ ∃ candidate ∈ candidates, check candidate = true := by
  obtain ⟨results, hresults, hchecked⟩ := (Option.any_eq_true _ _).mp h
  obtain ⟨hkept, hall⟩ := Bool.and_eq_true_iff.mp hchecked
  obtain ⟨path, hpath, htext⟩ := List.any_eq_true.mp hkept
  replace htext := of_decide_eq_true htext
  obtain ⟨candidates, hconvert⟩ : ∃ candidates, convert lookups meaningCost context nBest order
      tables modifiers composing = some candidates := by
    rw [convert, hresults]
    exact ⟨_, rfl⟩
  obtain ⟨candidate, hin, hsame⟩ := exists_convert hconvert hresults hpath (htext ▸ hne)
  refine ⟨candidates, hconvert, candidate, hin, ?_⟩
  obtain ⟨-, _, made, hagain, hmade, rfl⟩ := mem_convert hconvert hin
  obtain rfl := Option.some.inj (hresults.symm.trans hagain)
  have hmadeCheck := List.all_eq_true.mp hall made hmade
  simpa [hsame.trans htext] using hmadeCheck

def kahanaText : ComposingText :=
  ComposingText.new.insertStr .kana endingTables ['か', 'は', 'な'] .direct

def hanaText : ComposingText := kahanaText.completePrefix endingTables (.surface 1)

theorem aligned_kahana : EntriesAligned Lookups.flower [kaEntry] kahanaText ∧
    EntriesAligned Lookups.flower [kaEntry] hanaText := by
  have hgraphemes : ∀ composing ∈ [kahanaText, hanaText], ∀ start < 3,
      kaEntry.ruby <+: ((katakanaGraphemes .kana composing).drop start).flatten →
        graphemes .kana kaEntry.ruby <+: (katakanaGraphemes .kana composing).drop start := by
    decide +kernel
  have hlength : ∀ composing ∈ [kahanaText, hanaText],
      (katakanaGraphemes .kana composing).length ≤ 3 := by decide +kernel
  have haligned : ∀ composing ∈ [kahanaText, hanaText],
      EntriesAligned Lookups.flower [kaEntry] composing := by
    rintro composing hcomposing start entry (hentry | hlearned) hprefix
    · obtain rfl := List.mem_singleton.mp hentry
      by_cases hstart : start < 3
      · exact hgraphemes composing hcomposing start hstart hprefix
      · have hle := hlength composing hcomposing
        rw [List.drop_of_length_le (by omega)] at hprefix
        exact absurd (List.prefix_nil.mp hprefix) (List.cons_ne_nil _ _)
    · exact absurd hlearned List.not_mem_nil
  exact ⟨haligned _ (by simp), haligned _ (by simp)⟩

/-- 蚊 is selected as the first clause of 蚊花, and then 花 for what it leaves. -/
theorem reading_conserved_kahana :
    (∃ candidates, convert Lookups.flower (fun _ _ => 0) {} 3 .identity endingTables
        { additionalEntries := [kaEntry] } kahanaText = some candidates ∧
      (∃ candidate ∈ candidates, candidate.text = ['蚊', '花']) ∧
      ∀ candidate ∈ candidates, Conserves .kana endingTables kahanaText candidate) ∧
    ∃ left, Selected .kana endingTables kahanaText (['カ'] ++ ['ハ', 'ナ']) left ∧
      left.surface = [] ∧
      reading kahanaText = ['カ', 'ハ', 'ナ'] ++ reading left := by
  have hreached : ComposingText.Reached .kana endingTables (fun text edit =>
      ComposingText.InsertsQuietly .kana endingTables edit ∧ text.InsertsVisibly .kana edit)
      kahanaText :=
    .edit (.insertStr ['か', 'は', 'な'] .direct) .new
      ⟨(types_insertStr .kana _ .direct).insertsQuietly, fun _ h => h.2 rfl⟩
  obtain ⟨hconserves, hrow⟩ :=
    reading_conserved .kana endingTables kahanaText hreached (by decide +kernel)
  obtain ⟨candidates, hconvert, candidate, hin, hcheck⟩ :=
    @exists_candidate .kana endingTables .identity kahanaText Lookups.flower {} 3 (fun _ _ => 0)
      { additionalEntries := [kaEntry] } ['蚊', '花']
      (fun candidate => candidate.text = ['蚊', '花'] &&
        (candidate.firstClauseCandidate .kana).any fun first =>
          first.composingCount = .surface 1 && rubyText first.entries = ['カ'])
      (by simp) (by decide +kernel)
  simp only [Bool.and_eq_true, decide_eq_true_eq] at hcheck
  obtain ⟨htext, hfirst⟩ := hcheck
  obtain ⟨first, hfirst, hclause⟩ := (Option.any_eq_true _ _).mp hfirst
  simp only [Bool.and_eq_true, decide_eq_true_eq] at hclause
  obtain ⟨rest, hrest, last, hlast, hlastCheck⟩ :=
    @exists_candidate .kana endingTables .identity hanaText Lookups.flower {} 3 (fun _ _ => 0)
      { additionalEntries := [kaEntry] } ['花']
      (fun candidate => candidate.composingCount = .surface 2 &&
        rubyText candidate.entries = ['ハ', 'ナ'])
      (by simp) (by decide +kernel)
  simp only [Bool.and_eq_true, decide_eq_true_eq] at hlastCheck
  have hclauseRow : Selected .kana endingTables kahanaText ['カ'] hanaText := by
    have hone := Selected.none.select keyed_flower aligned_kahana.1 hconvert hin (.inr hfirst)
    rwa [hclause.1, hclause.2] at hone
  have hwholeRow : Selected .kana endingTables kahanaText (['カ'] ++ ['ハ', 'ナ'])
      (hanaText.completePrefix endingTables (.surface 2)) := by
    have htwo := hclauseRow.select keyed_flower aligned_kahana.2 hrest hlast (.inl rfl)
    rwa [hlastCheck.1, hlastCheck.2] at htwo
  refine ⟨⟨candidates, hconvert, ⟨candidate, hin, htext⟩, ?_⟩, _, hwholeRow, by decide +kernel,
    hrow _ _ hwholeRow⟩
  exact hconserves _ _ _ _ _ _ none _ keyed_flower aligned_kahana.1 hconvert

/-! ### An entry that ends inside a grapheme -/

def voicedText : ComposingText :=
  ComposingText.new.insertStr .kana endingTables ['か', Char.ofNat 0x3099] .direct

def wordsAndRubies (path : RegisteredPath) : Text × Text :=
  (path.nodes.reverse.flatMap fun node => node.entry.word,
    rubyText (path.nodes.reverse.map LatticeNode.entry))

theorem voiced_paths : (latticeResults (.empty .kana) {} 1 .identity endingTables
    { additionalEntries := [kaEntry] } voicedText).map (fun results => results.map wordsAndRubies) =
    some [(['か', Char.ofNat 0x3099], ['カ', Char.ofNat 0x3099]),
      (['カ', Char.ofNat 0x3099], ['カ', Char.ofNat 0x3099]), (['蚊'], ['カ'])] := by decide +kernel

/-- The word of the user dictionary takes the sound mark with it. -/
theorem voiced_reading_lost :
    ¬∀ (unicode : UnicodeTable) (tables : InputTableRegistry) (composing : ComposingText),
      ComposingText.Reachable unicode tables composing →
      composing.surface = graphemes unicode composing.surfaceText →
      ∀ (lookups : Lookups unicode) (meaningCost : Nat → Nat → ℚ) (context : ConversionContext)
        (nBest : Nat) (order : HashOrder) (additionalEntries : List DictionaryEntry)
        (candidates : List Candidate), Keyed lookups →
        convert lookups meaningCost context nBest order tables { additionalEntries } composing =
          some candidates →
        ∀ candidate ∈ candidates, Conserves unicode tables composing candidate := by
  intro hall
  have hreach : ComposingText.Reachable .kana endingTables voicedText :=
    .edit (.insertStr ['か', Char.ofNat 0x3099] .direct) .new trivial
  obtain ⟨results, hresults, hpaths⟩ := Option.map_eq_some_iff.mp voiced_paths
  have hmem : (['蚊'], ['カ']) ∈ results.map wordsAndRubies := by
    rw [hpaths]
    simp
  obtain ⟨path, hpath, heq⟩ := List.mem_map.mp hmem
  have htext : (path.nodes.reverse.flatMap fun node => node.entry.word) = ['蚊'] :=
    (Prod.mk.inj heq).1
  obtain ⟨candidates, hconvert⟩ : ∃ candidates, convert (.empty .kana) (fun _ _ => 0) {} 1
      .identity endingTables { additionalEntries := [kaEntry] } voicedText = some candidates := by
    rw [convert, hresults]
    exact ⟨_, rfl⟩
  obtain ⟨candidate, hin, hsame⟩ := exists_convert hconvert hresults hpath (by
    rw [makeCandidate_text, htext]
    exact List.cons_ne_nil _ _)
  have hwhole := (hall .kana endingTables voicedText hreach (by decide +kernel) _ _ _ _ _ _
    candidates (keyed_empty .kana) hconvert candidate hin).whole
  obtain ⟨-, _, made, hagain, hmade, rfl⟩ := mem_convert hconvert hin
  obtain rfl := Option.some.inj (hresults.symm.trans hagain)
  rw [makeCandidate_text, makeCandidate_text, htext] at hsame
  rw [makeCandidate_entries] at hwhole
  have hpair : wordsAndRubies made ∈ results.map wordsAndRubies := List.mem_map_of_mem hmade
  rw [hpaths, wordsAndRubies, hsame, hwhole] at hpair
  exact absurd hpair (by decide +kernel)

end BeanKey.Lattice
