import BeanKey.Session.Request
import BeanKey.Session.Expanded

/-! The texts a request displays. Those it lists differ from each other; what the templates in
them are filled in with can coincide. -/
namespace BeanKey

namespace Lattice

theorem unique_nodup (candidates : List Candidate) :
    ((unique candidates).map Candidate.text).Nodup := by
  rw [unique, insertUnique_eq]
  exact Keyed.foldl_insert_nodup Candidate.text GivesWay List.nodup_nil

theorem unique_length (candidates : List Candidate) :
    (unique candidates).length ≤ candidates.length := by
  have hall := Keyed.foldl_insert_length Candidate.text GivesWay
    (candidates.filter fun candidate => candidate.text ≠ []) []
  rw [← insertUnique_eq, List.length_nil, Nat.zero_add] at hall
  exact hall.trans (List.length_filter_le _ _)

theorem text_not_mem_of_unseen {seen : List Text} {candidates : List Candidate}
    {candidate : Candidate} (h : candidate ∈ unseen seen candidates) : candidate.text ∉ seen := by
  induction candidates generalizing seen with
  | nil => exact absurd h List.not_mem_nil
  | cons first rest ih =>
    rw [unseen] at h
    split at h
    · exact ih h
    · next hnew =>
      cases List.mem_cons.mp h with
      | inl hfirst => exact hfirst ▸ hnew
      | inr hin => exact fun hold => ih hin (List.mem_cons_of_mem _ hold)

theorem unseen_nodup (seen : List Text) (candidates : List Candidate) :
    ((unseen seen candidates).map Candidate.text).Nodup := by
  induction candidates generalizing seen with
  | nil => exact List.nodup_nil
  | cons first rest ih =>
    rw [unseen]
    split
    · exact ih seen
    · rw [List.map_cons, List.nodup_cons]
      refine ⟨fun hin => ?_, ih _⟩
      obtain ⟨candidate, hcandidate, htext⟩ := List.mem_map.mp hin
      exact text_not_mem_of_unseen hcandidate (htext ▸ List.mem_cons_self)

theorem text_mem_append_unseen (listed candidates : List Candidate) (text : Text) :
    text ∈ (listed ++ unseen (listed.map Candidate.text) candidates).map Candidate.text ↔
      text ∈ listed.map Candidate.text ∨ text ∈ candidates.map Candidate.text := by
  have hunseen : ∀ seen : List Text, ∀ candidates : List Candidate, text ∉ seen →
      (text ∈ (unseen seen candidates).map Candidate.text ↔
        text ∈ candidates.map Candidate.text) := by
    intro seen candidates hseen
    induction candidates generalizing seen with
    | nil => rfl
    | cons first rest ih =>
      rw [unseen, List.map_cons, List.mem_cons]
      split
      · next hold =>
        rw [ih seen hseen, or_iff_right]
        rintro rfl
        exact hseen hold
      · rw [List.map_cons, List.mem_cons]
        by_cases hfirst : text = first.text
        · simp [hfirst]
        · rw [ih (first.text :: seen) (by simp [hfirst, hseen])]
  rw [List.map_append, List.mem_append]
  by_cases hin : text ∈ listed.map Candidate.text
  · exact iff_of_true (.inl hin) (.inl hin)
  · rw [hunseen _ _ hin]

theorem append_unseen_nodup {listed : List Candidate} (h : (listed.map Candidate.text).Nodup)
    (candidates : List Candidate) :
    ((listed ++ unseen (listed.map Candidate.text) candidates).map Candidate.text).Nodup := by
  rw [List.map_append, List.nodup_append]
  refine ⟨h, unseen_nodup _ _, ?_⟩
  intro text hin other hother heq
  obtain ⟨candidate, hcandidate, rfl⟩ := List.mem_map.mp hother
  exact text_not_mem_of_unseen hcandidate (heq ▸ hin)

end Lattice

namespace Session
open Input BeanKey.Lattice

section
variable {unicode : UnicodeTable} {lookups : Lookups unicode} {toUppercase : Text → Text}
  {expandTemplates : Text → Text} {options : RequestOptions} {extras : RequestExtras}
  {composing : ComposingText} {prefixCandidate : Option Lattice.Candidate}
  {full leading : List Lattice.Candidate}

/-! ### Listed texts -/

/-- Values put in between are as good as values put behind. -/
theorem splice_perm {α : Type} (values inserted : List α) (place : Nat) :
    (values.take place ++ inserted ++ values.drop place).Perm (values ++ inserted) := by
  conv_rhs => rw [← List.take_append_drop place values]
  rw [List.append_assoc, List.append_assoc]
  exact List.perm_append_comm.append_left _

theorem withPredictions_nodup {predictions : Option (List Lattice.Candidate)}
    (h : (leading.map Lattice.Candidate.text).Nodup) :
    ((withPredictions predictions leading).map Lattice.Candidate.text).Nodup := by
  cases predictions with
  | none => exact h
  | some predictions => exact unique_nodup _

theorem withReading_nodup (reading : Text) (h : (leading.map Lattice.Candidate.text).Nodup) :
    ((withReading reading full leading).map Lattice.Candidate.text).Nodup := by
  rw [withReading]
  split
  · exact h
  · split
    · next candidate _ =>
      dsimp only
      rw [((splice_perm _ [candidate] 2).map Lattice.Candidate.text).nodup_iff, List.map_append,
        List.nodup_append]
      refine ⟨h.sublist (List.filter_sublist.map _), List.nodup_singleton _, ?_⟩
      intro text hin other hother heq
      obtain ⟨item, hitem, rfl⟩ := List.mem_map.mp hin
      rw [List.map_singleton, List.mem_singleton] at hother
      simpa [heq, hother] using List.mem_filter.mp hitem
    · exact h

theorem leadingCandidates_nodup : ((leadingCandidates unicode extras composing prefixCandidate
    full).map Lattice.Candidate.text).Nodup := by
  apply withReading_nodup
  refine List.Nodup.sublist ((List.take_sublist 5 _).map _) ?_
  rw [sortByValue, ((List.mergeSort_perm _ _).map Lattice.Candidate.text).nodup_iff]
  refine List.Nodup.sublist (List.filter_sublist.map _) ?_
  exact withPredictions_nodup (withPredictions_nodup (unique_nodup _))

/-- The candidates of `assemble_request` before they are prepared for display. -/
def listedCandidates (lookups : Lookups unicode) (toUppercase : Text → Text)
    (options : RequestOptions) (extras : RequestExtras) (composing : ComposingText)
    (prefixCandidate : Option Lattice.Candidate) (full : List Lattice.Candidate) :
    List Lattice.Candidate :=
  let full := full.filter (matchesPrefix prefixCandidate)
  let leading := leadingCandidates unicode extras composing prefixCandidate full
  let seen := leading.map Lattice.Candidate.text
  let firstForMain := unseen seen (firstClauses unicode prefixCandidate full)
  let seen := seen ++ firstForMain.map Lattice.Candidate.text
  let words := unseen seen (requestWords lookups toUppercase options composing)
  let special := unseen (seen ++ words.map Lattice.Candidate.text) extras.special
  (leading ++ firstForMain ++ (words.take 5 ++ special ++ words.drop 5)).filter
    (matchesPrefix prefixCandidate)

theorem assembleRequest_eq : assembleRequest lookups toUppercase expandTemplates options extras
      composing prefixCandidate full =
    (listedCandidates lookups toUppercase options extras composing prefixCandidate full).map
      (prepareCandidate expandTemplates prefixCandidate) := rfl

theorem listedCandidates_nodup : ((listedCandidates lookups toUppercase options extras composing
    prefixCandidate full).map Lattice.Candidate.text).Nodup := by
  rw [listedCandidates]
  refine List.Nodup.sublist (List.filter_sublist.map _) ?_
  rw [(((splice_perm _ _ 5).append_left _).map Lattice.Candidate.text).nodup_iff]
  rw [← List.append_assoc, ← List.map_append, ← List.map_append]
  exact append_unseen_nodup (append_unseen_nodup (append_unseen_nodup leadingCandidates_nodup _) _)
    _

theorem listedCandidates_matches {candidate : Lattice.Candidate} (h : candidate ∈ listedCandidates
    lookups toUppercase options extras composing prefixCandidate full) :
    matchesPrefix prefixCandidate candidate = true := (List.mem_filter.mp h).2

/-! ### Displayed texts -/

theorem prepareCandidate_text (candidate : Lattice.Candidate) :
    (prepareCandidate expandTemplates prefixCandidate candidate).text =
      expandTemplates (prepareCandidate id prefixCandidate candidate).text := by
  have hexpand : ∀ source : Lattice.Candidate, (if expandTemplates source.text ≠ source.text then
      { source with text := expandTemplates source.text, isLearningTarget := false }
      else source).text = expandTemplates source.text := by
    intro source
    split
    · rfl
    · next hsame => exact (not_not.mp hsame).symm
  have hplain : ∀ source : Lattice.Candidate, (if id source.text ≠ source.text then
      { source with text := id source.text, isLearningTarget := false } else source) = source :=
    fun source => if_neg (not_not.mpr rfl)
  simp only [prepareCandidate, hexpand, hplain]

/-- An accepted prefix is displayed instead of its dictionary text. -/
theorem prepareCandidate_start {start candidate : Lattice.Candidate} {rest : Text}
    (h : candidate.text = dictionaryText start ++ rest) :
    (prepareCandidate id (some start) candidate).text = start.text ++ rest := by
  rw [prepareCandidate]
  simp only [h, stripPrefix_append, id_eq, ne_eq, not_true_eq_false, if_false]
  split
  · rfl
  · next hsame => rw [h, not_not.mp hsame]

theorem mem_filter_matches (candidates : List Lattice.Candidate) (text : Text) :
    text ∈ (candidates.filter (matchesPrefix prefixCandidate)).map Lattice.Candidate.text ↔
      text ∈ candidates.map Lattice.Candidate.text ∧
        (prefixCandidate.all fun start => (dictionaryText start).isPrefixOf text) = true := by
  simp only [List.mem_map, List.mem_filter]
  constructor
  · rintro ⟨candidate, ⟨hin, hmatches⟩, rfl⟩
    exact ⟨⟨candidate, hin, rfl⟩, hmatches⟩
  · rintro ⟨⟨candidate, hin, rfl⟩, hmatches⟩
    exact ⟨candidate, ⟨hin, hmatches⟩, rfl⟩

def rewritten (prefixCandidate : Option Lattice.Candidate) (text : Text) : Text :=
  match prefixCandidate with
  | none => text
  | some start => start.text ++ text.drop (dictionaryText start).length

theorem prepareCandidate_rewritten {candidate : Lattice.Candidate}
    (h : matchesPrefix prefixCandidate candidate = true) :
    (prepareCandidate id prefixCandidate candidate).text =
      rewritten prefixCandidate candidate.text := by
  cases prefixCandidate with
  | none => simp [prepareCandidate, rewritten]
  | some start =>
    obtain ⟨rest, hrest⟩ := List.isPrefixOf_iff_prefix.mp h
    rw [prepareCandidate_start hrest.symm, rewritten, ← hrest, List.drop_left]

/-- Different texts are rewritten differently. -/
theorem rewritten_injective {first second : Text}
    (hfirst : (prefixCandidate.all fun start => (dictionaryText start).isPrefixOf first) = true)
    (hsecond : (prefixCandidate.all fun start => (dictionaryText start).isPrefixOf second) = true)
    (h : rewritten prefixCandidate first = rewritten prefixCandidate second) : first = second := by
  cases prefixCandidate with
  | none => exact h
  | some start =>
    obtain ⟨rest, rfl⟩ := List.isPrefixOf_iff_prefix.mp hfirst
    obtain ⟨others, rfl⟩ := List.isPrefixOf_iff_prefix.mp hsecond
    rw [rewritten, rewritten, List.drop_left, List.drop_left] at h
    rw [List.append_cancel_left h]

/-- The texts a request has to show: those that lead, the first clauses, every word and
representation of the reading and every special candidate. -/
def offeredTexts (lookups : Lookups unicode) (toUppercase : Text → Text) (options : RequestOptions)
    (extras : RequestExtras) (composing : ComposingText)
    (prefixCandidate : Option Lattice.Candidate) (full : List Lattice.Candidate) : List Text :=
  let full := full.filter (matchesPrefix prefixCandidate)
  ((leadingCandidates unicode extras composing prefixCandidate full ++
      firstClauses unicode prefixCandidate full ++ requestWords lookups toUppercase
        options composing ++
      extras.special).filter (matchesPrefix prefixCandidate)).map fun candidate =>
    rewritten prefixCandidate candidate.text

/-- Every one of them is listed, and nothing else. -/
theorem mem_listedCandidates (text : Text) :
    text ∈ (listedCandidates lookups toUppercase options extras composing prefixCandidate full).map
        (fun candidate => rewritten prefixCandidate candidate.text) ↔
      text ∈ offeredTexts lookups toUppercase options extras composing prefixCandidate full := by
  have hmap : ∀ candidates : List Lattice.Candidate,
      (candidates.map fun candidate => rewritten prefixCandidate candidate.text) =
        (candidates.map Lattice.Candidate.text).map (rewritten prefixCandidate) := by simp
  rw [offeredTexts, hmap, hmap, List.mem_map, List.mem_map]
  refine exists_congr fun listed => and_congr_left' ?_
  rw [listedCandidates, mem_filter_matches, mem_filter_matches]
  refine and_congr_left' ?_
  rw [(((splice_perm _ _ 5).append_left _).map Lattice.Candidate.text).mem_iff, ← List.append_assoc,
    ← List.map_append, ← List.map_append, text_mem_append_unseen, text_mem_append_unseen,
    text_mem_append_unseen]
  simp only [List.map_append, List.mem_append]

theorem assembleRequest_texts :
    (assembleRequest lookups toUppercase expandTemplates options extras composing prefixCandidate
        full).map Lattice.Candidate.text =
      ((listedCandidates lookups toUppercase options extras composing prefixCandidate full).map
        fun candidate => rewritten prefixCandidate candidate.text).map expandTemplates := by
  rw [assembleRequest_eq, List.map_map, List.map_map]
  refine List.map_congr_left fun candidate hin => ?_
  rw [Function.comp_apply, prepareCandidate_text,
    prepareCandidate_rewritten (listedCandidates_matches hin)]
  rfl

theorem rewritten_nodup : ((listedCandidates lookups toUppercase options extras composing
    prefixCandidate full).map fun candidate => rewritten prefixCandidate candidate.text).Nodup := by
  refine List.Nodup.map_on ?_ (List.Nodup.of_map _ listedCandidates_nodup)
  intro first hfirst second hsecond h
  have htext := rewritten_injective (listedCandidates_matches hfirst)
    (listedCandidates_matches hsecond) h
  exact List.inj_on_of_nodup_map listedCandidates_nodup hfirst hsecond htext

/-- The texts that a request can be given: conversions and their first clauses, shortcuts,
predictions, special candidates, words and representations. -/
def givenTexts (lookups : Lookups unicode) (toUppercase : Text → Text) (options : RequestOptions)
    (extras : RequestExtras) (composing : ComposingText) (full : List Lattice.Candidate) :
    List Text :=
  (full ++ full.filterMap (Candidate.firstClauseCandidate unicode) ++
    extras.candidates unicode composing ++ wordCandidates lookups composing ++
      representationCandidates unicode toUppercase composing options.fullWidthRoman
        options.halfWidthKana).map Lattice.Candidate.text

theorem offered_given {text : Text}
    (h : text ∈ offeredTexts lookups toUppercase options extras composing prefixCandidate full) :
    ∃ given ∈ givenTexts lookups toUppercase options extras composing full,
      text = rewritten prefixCandidate given := by
  obtain ⟨candidate, hin, rfl⟩ := List.mem_map.mp h
  refine ⟨candidate.text, List.mem_map_of_mem ?_, rfl⟩
  simp only [List.mem_append]
  rcases List.mem_append.mp (List.mem_of_mem_filter hin) with hrest | hspecial
  · rcases List.mem_append.mp hrest with hfront | hword
    · rcases List.mem_append.mp hfront with hleading | hclause
      · rcases mem_leadingCandidates hleading with hfull | hextra
        · exact .inl (.inl (.inl (.inl (List.mem_of_mem_filter hfull))))
        · exact .inl (.inl (.inr hextra))
      · obtain ⟨whole, hwhole, hfirst⟩ := mem_firstClauses hclause
        exact .inl (.inl (.inl (.inr
          (List.mem_filterMap.mpr ⟨whole, List.mem_of_mem_filter hwhole, hfirst⟩))))
    · rcases mem_requestWords hword with hword | hrepresentation
      · exact .inl (.inr hword)
      · exact .inr hrepresentation
  · exact .inl (.inl (.inr (by simp [RequestExtras.candidates, hspecial])))

open Template in
/-- A request displays no text twice exactly when no text with a tag comes out as another text does
once each tag is replaced by its value; so it is where no text that it is given has a tag. -/
theorem displayed_nodup_iff {Moment Source Double : Type}
    (occasion : Occasion Moment Source Double) :
    (((assembleRequest lookups toUppercase occasion.expand options extras composing prefixCandidate
        full).map Lattice.Candidate.text).Nodup ↔
      ∀ text ∈ offeredTexts lookups toUppercase options extras composing prefixCandidate full,
        HasTag text →
        ∀ other ∈ offeredTexts lookups toUppercase options extras composing prefixCandidate full,
          other ≠ text → occasion.filled text ≠ occasion.filled other) ∧
    ((∀ given ∈ givenTexts lookups toUppercase options extras composing full,
        ¬HasTag (rewritten prefixCandidate given)) →
      ((assembleRequest lookups toUppercase occasion.expand options extras composing prefixCandidate
        full).map Lattice.Candidate.text).Nodup) := by
  have hexact : ((assembleRequest lookups toUppercase occasion.expand options extras composing
      prefixCandidate full).map Lattice.Candidate.text).Nodup ↔
      ∀ text ∈ offeredTexts lookups toUppercase options extras composing prefixCandidate full,
        HasTag text →
        ∀ other ∈ offeredTexts lookups toUppercase options extras composing prefixCandidate full,
          other ≠ text → occasion.filled text ≠ occasion.filled other := by
    rw [assembleRequest_texts, List.nodup_map_iff_inj_on rewritten_nodup]
    simp only [mem_listedCandidates, occasion.expand_eq_filled]
    constructor
    · intro hdistinct text hin _ other hother hne heq
      exact hne (hdistinct other hother text hin heq.symm)
    · intro htagged first hfirst second hsecond heq
      by_contra hne
      by_cases hfirstTag : HasTag first
      · exact htagged first hfirst hfirstTag second hsecond (Ne.symm hne) heq
      · by_cases hsecondTag : HasTag second
        · exact htagged second hsecond hsecondTag first hfirst hne heq.symm
        · -- neither text changes
          rw [occasion.filled_of_plain hfirstTag, occasion.filled_of_plain hsecondTag] at heq
          exact hne heq
  refine ⟨hexact, fun hplain => hexact.mpr fun text hin htag => ?_⟩
  obtain ⟨given, hgiven, rfl⟩ := offered_given hin
  exact absurd htag (hplain given hgiven)

/-! ### Dates -/

theorem text_mem_withReading {reading text : Text}
    (h : text ∈ leading.map Lattice.Candidate.text) :
    text ∈ (withReading reading full leading).map Lattice.Candidate.text := by
  rw [withReading]
  split
  · exact h
  · split
    · next candidate _ =>
      dsimp only
      rw [((splice_perm _ [candidate] 2).map Lattice.Candidate.text).mem_iff, List.map_append,
        List.mem_append]
      by_cases hsame : text = candidate.text
      · exact .inr (by simp [hsame])
      · obtain ⟨item, hitem, rfl⟩ := List.mem_map.mp h
        exact .inl (List.mem_map_of_mem (List.mem_filter.mpr ⟨hitem, by simpa using hsame⟩))
    · exact h

/-- Where no more than five candidates lead, none of their texts is left out. -/
theorem text_mem_listed {candidate : Lattice.Candidate}
    (hfew : full.length + extras.shortcuts.length ≤ 5) (hpredictions : extras.predictions = none)
    (hforeign : extras.foreignPredictions = none) (htext : candidate.text ≠ [])
    (h : candidate ∈ shortcutCandidates unicode extras.shortcuts composing) :
    ∃ listed ∈ listedCandidates lookups toUppercase options extras composing none full,
      listed.text = candidate.text := by
  have hall : ∀ candidates : List Lattice.Candidate,
      candidates.filter (matchesPrefix none) = candidates := fun _ =>
    List.filter_eq_self.mpr fun _ _ => rfl
  obtain ⟨kept, hkept, hsame⟩ := text_mem_unique (List.mem_append_right (full.take 5) h) htext
  have hshortcuts : (shortcutCandidates unicode extras.shortcuts composing).length ≤
      extras.shortcuts.length := by
    rw [shortcutCandidates, List.length_map]
    exact List.length_filter_le _ _
  have hlength : (unique (full.take 5 ++ shortcutCandidates unicode extras.shortcuts
      composing)).length ≤ 5 := by
    refine (unique_length _).trans ?_
    rw [List.length_append, List.length_take]
    omega
  have hleading : candidate.text ∈
      (leadingCandidates unicode extras composing none full).map Lattice.Candidate.text := by
    apply text_mem_withReading
    rw [hpredictions, hforeign, hall, List.take_of_length_le (by
      rw [sortByValue, List.length_mergeSort]
      exact hlength)]
    exact List.mem_map.mpr ⟨kept, List.mem_mergeSort.mpr hkept, hsame⟩
  obtain ⟨listed, hlisted, heq⟩ := List.mem_map.mp hleading
  refine ⟨listed, ?_, heq⟩
  rw [listedCandidates, hall, hall]
  exact List.mem_append_left _ (List.mem_append_left _ hlisted)

end

def shortDate : Text :=
  "<date format=\"M月d日\" type=\"western\" language=\"ja_JP\" delta=\"0\" deltaunit=\"1\">".toList

def longDate : Text :=
  "<date format=\"MM月dd日\" type=\"western\" language=\"ja_JP\" delta=\"0\" deltaunit=\"1\">".toList

/-- The 25th of December, whatever is asked of it; the two patterns write it alike. -/
def december : Template.Occasion Unit Unit Unit where
  calendar _ :=
    { after := fun _ => some ()
      formatDate := fun format _ _ _ =>
        if format = "M月d日".toList ∨ format = "MM月dd日".toList then some "12月25日".toList else none }
  random :=
    { range := fun left _ source => (left, source)
      parseDouble := fun _ => none
      isFinite := fun _ => false
      le := fun _ _ => false
      doubleRange := fun left _ source => (left, source)
      showDouble := fun _ => []
      choose := fun values source => (values.head?, source) }
  source _ := ()

open Template in
theorem december_expand {word : Text} (hword : word = shortDate ∨ word = longDate) :
    december.expand word = "12月25日".toList := by
  have htag : findTag dateOpening word 0 = some (0, word.length) := by
    rcases hword with rfl | rfl <;> decide +kernel
  have hdate : expandDateTemplate (december.calendar word) word = some "12月25日".toList := by
    rcases hword with rfl | rfl <;> decide +kernel
  have hend : findTag dateOpening [] 0 = none := by decide
  have hrandom : findTag randomOpening "12月25日".toList 0 = none := by decide
  rw [december.expand_eq_filled, Occasion.filled, onePass_some htag]
  simp only [List.drop_zero, Nat.sub_zero, List.take_length, List.take_zero,
    List.drop_length, hdate,
    Option.getD_some, onePass_none hend, List.nil_append, List.append_nil, onePass_none hrandom]

def dateShortcut (word : Text) : DictionaryEntry :=
  { word, ruby := ['ヒ'], leftId := 1288, rightId := 1288, meaningId := 501, baseValue := -5 }

def dateExtras : RequestExtras := { shortcuts := [dateShortcut shortDate, dateShortcut longDate] }

def dayText : ComposingText :=
  ComposingText.new.edit .kana ComposingText.kyoTables (.insertStr ['ひ'] .direct)

theorem dateShortcut_displayed {full : List Lattice.Candidate}
    (hfew : full.length ≤ 2) {word : Text}
    (hword : word = shortDate ∨ word = longDate) :
    ∃ listed ∈ listedCandidates (.empty .kana) id {} dateExtras dayText none full,
      listed.text = word ∧ (prepareCandidate december.expand none listed).text =
        "12月25日".toList := by
  have hshortcuts : (shortcutCandidates .kana dateExtras.shortcuts dayText).map
      Lattice.Candidate.text = [shortDate, longDate] := by decide +kernel
  have hin : word ∈ (shortcutCandidates .kana dateExtras.shortcuts dayText).map
      Lattice.Candidate.text := by
    rw [hshortcuts]
    simpa using hword
  obtain ⟨candidate, hcandidate, rfl⟩ := List.mem_map.mp hin
  have htext : candidate.text ≠ [] := by
    intro hnil
    rw [hnil] at hword
    revert hword
    decide
  have hcount : full.length + dateExtras.shortcuts.length ≤ 5 :=
    Nat.add_le_add hfew (by decide : 2 ≤ 3)
  obtain ⟨listed, hlisted, hsame⟩ := @text_mem_listed .kana (.empty .kana) id {} dateExtras dayText
    full candidate hcount rfl rfl htext hcandidate
  refine ⟨listed, hlisted, hsame, ?_⟩
  rw [prepareCandidate_text]
  have hplain : (prepareCandidate id none listed).text = listed.text := by simp [prepareCandidate]
  rw [hplain, hsame, december_expand hword]

/-- On that day two shortcuts of `ひ` are displayed alike. -/
theorem dates_displayed_alike : ∃ results,
    request (.empty .kana) id (fun _ _ => 0) december.expand .identity ComposingText.kyoTables {} []
      {}
      dateExtras dayText = some results ∧ ¬(results.map Lattice.Candidate.text).Nodup := by
  obtain ⟨paths, hpaths, hcount⟩ := Option.map_eq_some_iff.mp (show
    (latticeResults (.empty .kana) {} 10 .identity ComposingText.kyoTables {} dayText).map
      List.length = some 2 by decide +kernel)
  have hconvert := congrArg (Option.map fun results => uniqueCandidates (sortByValue (results.map
    (makeCandidate (.empty .kana) (fun _ _ => 0) {})))) hpaths
  rw [Option.map_some] at hconvert
  change convert (.empty .kana) (fun _ _ => 0) {} 10 .identity ComposingText.kyoTables {} dayText =
    _ at hconvert
  obtain ⟨results, hresults⟩ : ∃ results, request (.empty .kana) id (fun _ _ => 0) december.expand
      .identity ComposingText.kyoTables {} [] {} dateExtras dayText = some results :=
    ⟨_, congrArg (Option.map _) hconvert⟩
  refine ⟨results, hresults, fun hnodup => ?_⟩
  obtain ⟨full, hfull, hassembled⟩ := Option.map_eq_some_iff.mp hresults
  obtain rfl := Option.some.inj (hconvert.symm.trans hfull)
  have hfew : (uniqueCandidates (sortByValue (paths.map
      (makeCandidate (.empty .kana) (fun _ _ => 0) {})))).length ≤ 2 := by
    rw [uniqueCandidates, sortByValue, List.length_mergeSort]
    refine (unique_length _).trans ?_
    rw [sortByValue, List.length_mergeSort, List.length_map, hcount]
  obtain ⟨short, hshort, hshortText, hshortShown⟩ := dateShortcut_displayed hfew (.inl rfl)
  obtain ⟨long, hlong, hlongText, hlongShown⟩ := dateShortcut_displayed hfew (.inr rfl)
  rw [← hassembled, assembleRequest_eq, List.map_map] at hnodup
  have hsame : short = long := List.inj_on_of_nodup_map hnodup hshort hlong
    (hshortShown.trans hlongShown.symm)
  rw [hsame, hlongText] at hshortText
  exact absurd hshortText (by decide)

end Session

end BeanKey
