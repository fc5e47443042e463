import BeanKey.Dictionary.Matches
import BeanKey.Dictionary.Prefixes
import BeanKey.Session.Offered

/-! Dictionaries whose entries stand at the nodes of their readings: a lookup finds entries that
read what was looked for. -/
namespace BeanKey.Dictionary
open BeanKey.Lattice
open BeanKey.Descent (Leads)
open Beginning (Proper proper_iff)

def Louds.spelling (louds : Louds) (path : List Nat) : List UInt8 :=
  path.map fun node => louds.nodeIds.getD node 0

def Spelled (unicode : UnicodeTable) (format : FloatFormat) (characterIds : CharacterIdMap)
    (files : Files) : Prop :=
  ∀ identifier louds, files.loadLouds identifier = .ok (some louds) →
    ∀ path node, Leads louds.laterChildren 1 path node →
      ∀ entry ∈ nodeEntries format files identifier node,
        characterIds.encode unicode entry.ruby = some (louds.spelling path)

theorem Louds.ParsedAs.search_leads {louds : Louds} {nodeIds : List UInt8} {zeros : List Nat}
    (h : louds.ParsedAs nodeIds zeros) {ids : List UInt8} {node found : Nat}
    (hreached : louds.Reachable node) (hsearch : louds.searchFrom node ids = some found) :
    ∃ path, Leads louds.laterChildren node path found ∧ louds.spelling path = ids := by
  induction ids generalizing node with
  | nil => exact ⟨[], Option.some.inj hsearch, rfl⟩
  | cons id ids ih =>
    obtain ⟨child, hchild, hrest⟩ := Option.bind_eq_some_iff.mp hsearch
    have hin := Louds.searchChild_mem hchild
    obtain ⟨path, hpath, hspells⟩ := ih (.child hreached hin) hrest
    have hid : louds.nodeIds[child]? = some id := by simpa using List.find?_some hchild
    refine ⟨child :: path, ⟨child, ?_, hpath⟩, ?_⟩
    · exact Louds.mem_laterChildren.mpr ⟨rfl, hin, (h.child_later hreached hin).1⟩
    · rw [Louds.spelling, List.map_cons, ← Louds.spelling, hspells, List.getD_eq_getElem?_getD, hid,
        Option.getD_some]

section
variable {unicode : UnicodeTable} {format : FloatFormat} {characterIds : CharacterIdMap}
  {files : Files}

/-- A reading whose characters go on from those of another one goes on from it. -/
theorem proper_of_encode {start ruby : Text} {ids more : List UInt8} (hmore : more ≠ [])
    (hstart : characterIds.encode unicode start = some ids)
    (hruby : characterIds.encode unicode ruby = some (ids ++ more)) : Proper start ruby := by
  have hlength := (Loop.mapM_eq_some.mp hruby).length_eq
  have hsplit : (((graphemes unicode ruby).take ids.length).mapM characterIds.id).bind
      (fun first => (((graphemes unicode ruby).drop ids.length).mapM characterIds.id).map
        (first ++ ·)) = some (ids ++ more) := by
    rw [← mapM_id_append, List.take_append_drop]
    exact hruby
  obtain ⟨first, hfirst, hrest⟩ := Option.bind_eq_some_iff.mp hsplit
  obtain ⟨rest, -, hjoined⟩ := Option.map_eq_some_iff.mp hrest
  have hfirstLength := (Loop.mapM_eq_some.mp hfirst).length_eq
  rw [List.length_append] at hlength
  rw [List.length_take, hlength, Nat.min_eq_left (Nat.le_add_right _ _)] at hfirstLength
  obtain ⟨rfl, -⟩ := List.append_inj hjoined hfirstLength.symm
  have hgraphemes : (graphemes unicode ruby).take first.length = graphemes unicode start :=
    Loop.mapM_injective (fun _ _ _ => CharacterIdMap.id_injective) hfirst hstart
  have hproper : Proper (graphemes unicode start) (graphemes unicode ruby) := by
    refine ⟨hgraphemes ▸ List.take_prefix _ _, fun hsame => ?_⟩
    have hshort := congrArg List.length (hgraphemes.trans hsame.symm)
    rw [List.length_take, hlength] at hshort
    exact hmore (List.length_eq_zero_iff.mp (by omega))
  have hflat := hproper.flatten fun part hpart => ne_nil_of_mem_graphemes unicode hpart
  rwa [flatten_graphemes, flatten_graphemes] at hflat

theorem Spelled.ruby_eq (h : Spelled unicode format characterIds files) {identifier : Text}
    {louds : Louds} (hlouds : files.loadLouds identifier = .ok (some louds)) {ruby : Text}
    {ids : List UInt8} (hids : characterIds.encode unicode ruby = some ids) {node : Nat}
    (hsearch : louds.search ids = some node) {entries : List DictionaryEntry}
    (hentries : loadEntries format (files.loading format) identifier [node] = .ok entries) :
    ∀ entry ∈ entries, entry.ruby = ruby := by
  intro entry hin
  obtain ⟨bits, chars, hparse⟩ := Files.loadLouds_parse hlouds
  obtain ⟨path, hpath, rfl⟩ := (Louds.parse_parsedAs hparse).search_leads .root hsearch
  have hentry : entry ∈ nodeEntries format files identifier node := by
    simpa using (loadEntries_perm hentries).1.subset hin
  exact CharacterIdMap.encode_injective
    (h identifier louds hlouds path node hpath entry hentry) hids

theorem lookupKey_encode {ruby : Text} {identifier : Grapheme} {ids : List UInt8}
    (h : lookupKey unicode characterIds ruby = some (identifier, ids)) :
    characterIds.encode unicode ruby = some ids := by
  simp only [lookupKey, Option.bind_eq_bind, Option.bind_eq_some_iff, Option.pure_def,
    Option.some.injEq, Prod.mk.injEq] at h
  obtain ⟨-, -, found, hfound, -, rfl⟩ := h
  exact hfound

theorem Spelled.exactMatch (h : Spelled unicode format characterIds files) {ruby : Text}
    {entries : List DictionaryEntry}
    (hfound : exactMatch unicode format characterIds (files.loading format) ruby = .ok entries) :
    ∀ entry ∈ entries, entry.ruby = ruby := by
  unfold Dictionary.exactMatch at hfound
  cases hkey : lookupKey unicode characterIds ruby with
  | none =>
    rw [hkey] at hfound
    cases hfound
    simp
  | some key =>
    obtain ⟨identifier, ids⟩ := key
    rw [hkey] at hfound
    cases hlouds : (files.loading format).loadLouds identifier with
    | error error => simp [hlouds, bind, Except.bind] at hfound
    | ok tree =>
      simp only [hlouds, bind, Except.bind] at hfound
      cases tree with
      | none =>
        cases hfound
        simp
      | some louds =>
        cases hsearch : louds.search ids with
        | none =>
          simp only [hsearch] at hfound
          cases hfound
          simp
        | some node =>
          simp only [hsearch] at hfound
          exact h.ruby_eq hlouds (lookupKey_encode hkey) hsearch hfound

theorem Spelled.keyed (h : Spelled unicode format characterIds files)
    (learnedMatches : Text → Nat → List DictionaryEntry)
    (learnedExact : Text → List DictionaryEntry) :
    Keyed (files.lookups unicode format characterIds learnedMatches learnedExact) := by
  intro ruby maximumLength place hplace entry hentry
  cases hfound : matchesFromStart unicode format characterIds (files.loading format) ruby
      maximumLength with
  | error error => simp [Files.lookups, hfound, Except.toOption] at hplace
  | ok found =>
    have hin : place ∈ found := by simpa [Files.lookups, hfound, Except.toOption] using hplace
    obtain ⟨identifier, louds, hlouds, hextend⟩ :=
      matchesFromStart_tree hfound (List.ne_nil_of_mem hin)
    have hbefore : ([] : List Grapheme).mapM characterIds.id = some [] := rfl
    obtain ⟨-, hle, hentries, -⟩ := ((mem_extendMatch hbefore hextend).2 _ place.entries).mp hin
    rw [List.nil_append, List.length_take] at hle
    rw [List.nil_append, List.take_take, Nat.min_eq_left (by omega), entriesAt] at hentries
    cases hids : ((graphemes unicode ruby).take place.surfaceEnd).mapM characterIds.id with
    | none =>
      rw [hids] at hentries
      rw [← Except.ok.inj hentries] at hentry
      exact absurd hentry List.not_mem_nil
    | some ids =>
      rw [hids] at hentries
      cases hsearch : louds.search ids with
      | none =>
        simp only [hsearch] at hentries
        rw [← Except.ok.inj hentries] at hentry
        exact absurd hentry List.not_mem_nil
      | some node =>
        simp only [hsearch] at hentries
        have htake : graphemes unicode ((graphemes unicode ruby).take place.surfaceEnd).flatten =
            (graphemes unicode ruby).take place.surfaceEnd := by
          simpa using graphemes_take_drop unicode ruby 0 place.surfaceEnd
        refine h.ruby_eq hlouds ?_ hsearch hentries entry hentry
        rw [CharacterIdMap.encode, htake, hids]

theorem Spelled.entriesAfterPrefix (h : Spelled unicode format characterIds files) {ruby : Text}
    {maximumDepth maximumCount : Nat} {entries : List DictionaryEntry}
    (hfound : entriesAfterPrefix unicode format characterIds (files.loading format)
      ruby maximumDepth
      maximumCount = .ok entries) : ∀ entry ∈ entries, Proper ruby entry.ruby := by
  unfold Dictionary.entriesAfterPrefix at hfound
  cases hkey : lookupKey unicode characterIds ruby with
  | none =>
    rw [hkey] at hfound
    cases hfound
    simp
  | some key =>
    obtain ⟨identifier, ids⟩ := key
    rw [hkey] at hfound
    cases hlouds : (files.loading format).loadLouds identifier with
    | error error => simp [hlouds, bind, Except.bind] at hfound
    | ok tree =>
      simp only [hlouds, bind, Except.bind] at hfound
      cases tree with
      | none =>
        cases hfound
        simp
      | some louds =>
        intro entry hin
        obtain ⟨node, hnode, hentry⟩ :=
          List.mem_flatMap.mp ((loadEntries_perm hfound).1.subset hin)
        cases hsearch : louds.search ids with
        | none => simp [descendantsWithin, hsearch] at hnode
        | some root =>
          obtain ⟨bits, chars, hparse⟩ := Files.loadLouds_parse hlouds
          obtain ⟨path, hpath, hspells⟩ :=
            (Louds.parse_parsedAs hparse).search_leads .root hsearch
          have hbelow :=
            (descendantsWithin_all hparse hsearch maximumDepth maximumCount).1.subset hnode
          obtain ⟨more, hmore, -, hleads⟩ := Descent.mem_offspring.mp hbelow
          have hruby := h identifier louds hlouds (path ++ more) node
            ((Descent.leads_append _ _).mpr ⟨root, hpath, hleads⟩) entry hentry
          rw [Louds.spelling, List.map_append, ← Louds.spelling, hspells] at hruby
          exact proper_of_encode (by simpa using hmore) (lookupKey_encode hkey) hruby

def Files.predictionLookups (unicode : UnicodeTable) (format : FloatFormat)
    (characterIds : CharacterIdMap) (files : Files)
    (learnedMatches : Text → Nat → List DictionaryEntry)
    (learnedExact : Text → List DictionaryEntry) (predict : Text → Option (List DictionaryEntry)) :
    PredictionLookups unicode where
  toLookups := files.lookups unicode format characterIds learnedMatches learnedExact
  entriesAfterPrefix ruby maximumDepth maximumCount :=
    (Dictionary.entriesAfterPrefix unicode format characterIds (files.loading format) ruby
      maximumDepth maximumCount).toOption
  predict := predict

/-- In a dictionary whose entries stand at the nodes of their readings, an exact lookup finds
entries with the reading, a match reads as many graphemes as it takes, and what is found for a
prefix reads on from it; the conversions and predictions made with it may count on that. -/
theorem lookups_read (h : Spelled unicode format characterIds files)
    (learnedMatches : Text → Nat → List DictionaryEntry)
    (learnedExact : Text → List DictionaryEntry) (predict : Text → Option (List DictionaryEntry))
    (hlearned : ∀ start entries, predict start = some entries →
      ∀ entry ∈ entries, Proper start entry.ruby) :
    (∀ ruby entries, exactMatch unicode format characterIds (files.loading format) ruby =
      .ok entries → ∀ entry ∈ entries, entry.ruby = ruby) ∧
    Keyed (files.predictionLookups unicode format characterIds learnedMatches learnedExact
      predict).toLookups ∧
    (files.predictionLookups unicode format characterIds learnedMatches learnedExact
      predict).ReadOn := by
  refine ⟨fun ruby entries => h.exactMatch, h.keyed _ _, ?_, hlearned⟩
  intro start depth count entries hentries entry hin
  cases hfound : Dictionary.entriesAfterPrefix unicode format characterIds (files.loading format)
      start depth count with
  | error error => simp [Files.predictionLookups, hfound, Except.toOption] at hentries
  | ok found =>
    have hsame : found = entries := by
      simpa [Files.predictionLookups, hfound, Except.toOption] using hentries
    exact h.entriesAfterPrefix (hsame ▸ hfound) entry hin

/-! ### An example: `アア` -/

def everyFiles : Files := fun path =>
  match path.getLast? with
  | some 's' => .content chainBits
  | some '2' => .content [0, 0, 0, 0]
  | some '3' => .content chainShard
  | _ => .notFound

theorem everyFiles_loadLouds (identifier : Text) :
    everyFiles.loadLouds identifier = .ok (some chainTree) := by
  have hparse : Louds.parse chainBits [0, 0, 0, 0] = .ok chainTree := by decide +kernel
  have hbits (front : Text) : everyFiles (front ++ ".louds".toList) = .content chainBits := by
    simp [everyFiles]
  have hchars (front : Text) :
      everyFiles (front ++ ".loudschars2".toList) = .content [0, 0, 0, 0] := by
    simp [everyFiles]
  simp only [Files.loadLouds, Files.readOptional, hbits, hchars, bind, Except.bind, hparse]
  rfl

theorem everyFiles_nodeEntries (identifier : Text) {node : Nat} {entries : List DictionaryEntry}
    (h : parseEntryShard zeroFormat chainShard [(nodeSlot node).2] = .ok entries) :
    nodeEntries zeroFormat everyFiles identifier node = entries := by
  have hread (front : Text) : everyFiles (front ++ ".loudstxt3".toList) = .content chainShard := by
    simp [everyFiles]
  have hshard : everyFiles.loadShard (shardName identifier (nodeSlot node).1) =
      .ok chainShard := by
    simp only [Files.loadShard, Files.read, hread]
  rw [nodeEntries, loadEntries_node hshard h]
  rfl

theorem everyFiles_spelled : Spelled .kana zeroFormat smallIds everyFiles := by
  intro identifier louds hlouds path node hpath entry hentry
  rw [everyFiles_loadLouds, Except.ok.injEq, Option.some.injEq] at hlouds
  subst hlouds
  have hroot : chainTree.laterChildren 1 = [(2, 2)] := by decide
  have hnext : chainTree.laterChildren 2 = [(3, 3)] := by decide
  have hlast : chainTree.laterChildren 3 = [] := by decide
  have hnothing (node : Nat)
      (h : parseEntryShard zeroFormat chainShard [(nodeSlot node).2] = .ok []) :
      nodeEntries zeroFormat everyFiles identifier node = [] := everyFiles_nodeEntries identifier h
  cases path with
  | nil =>
    obtain rfl : 1 = node := hpath
    rw [hnothing 1 (by decide +kernel)] at hentry
    cases hentry
  | cons first path =>
    obtain ⟨child, hchild, hpath⟩ := hpath
    obtain ⟨rfl, rfl⟩ : first = 2 ∧ child = 2 := by simpa [hroot] using hchild
    cases path with
    | nil =>
      obtain rfl : 2 = node := hpath
      rw [hnothing 2 (by decide +kernel)] at hentry
      cases hentry
    | cons second path =>
      obtain ⟨child, hchild, hpath⟩ := hpath
      obtain ⟨rfl, rfl⟩ : second = 3 ∧ child = 3 := by simpa [hnext] using hchild
      cases path with
      | nil =>
        obtain rfl : 3 = node := hpath
        have hslot : parseEntryShard zeroFormat chainShard [(nodeSlot 3).2] =
            .ok [{ smallEntry with word := ['ア', 'ア'], ruby := ['ア', 'ア'] }] := by decide +kernel
        rw [everyFiles_nodeEntries identifier hslot] at hentry
        obtain rfl := List.mem_singleton.mp hentry
        decide +kernel
      | cons third path =>
        obtain ⟨child, hchild, -⟩ := hpath
        rw [hlast] at hchild
        cases hchild

/-- What is found behind `ア` reads on from it. -/
theorem lookups_read_chain : ∃ entries, entriesAfterPrefix .kana zeroFormat smallIds
    (everyFiles.loading zeroFormat) ['ア'] 3 700 = .ok entries ∧ entries ≠ [] ∧
      ∀ entry ∈ entries, Proper ['ア'] entry.ruby := by
  obtain ⟨entries, hentries, hne⟩ : ∃ entries, entriesAfterPrefix .kana zeroFormat smallIds
      (everyFiles.loading zeroFormat) ['ア'] 3 700 = .ok entries ∧ entries ≠ [] :=
    ⟨[{ smallEntry with word := ['ア', 'ア'], ruby := ['ア', 'ア'] }], by decide +kernel, by simp⟩
  have hread := lookups_read everyFiles_spelled (fun _ _ => []) (fun _ => []) (fun _ => some [])
    (by simp)
  refine ⟨entries, hentries, hne, hread.2.2.dictionary ['ア'] 3 700 entries ?_⟩
  simp only [Files.predictionLookups, hentries]
  rfl

end

end BeanKey.Dictionary
