import BeanKey.Dictionary.Utf8
import BeanKey.Lattice.Constrained
import BeanKey.Zenz.Completed
import BeanKey.Zenz.Drafted

/-! An accepted spelling in a conversion: it leads the constraint of every review as long as the
evaluator works behind it. -/
namespace BeanKey.Zenz
open BeanKey.Lattice hiding Candidate
open Packing Asking
open Session (Candidate ConversionSession)

/-! ### The evaluation behind a fixed prefix, with its checks -/

/-- `[..end]`; `none` where it panics. -/
def sliceTo {A : Type} (values : List A) (stop : Nat) : Option (List A) :=
  if stop ≤ values.length then some (values.take stop) else none

/-- `[start..]`; `none` where it panics. -/
def sliceFrom {A : Type} (values : List A) (start : Nat) : Option (List A) :=
  if start ≤ values.length then some (values.drop start) else none

def textFrom : Text → Nat → Option Text
  | text, 0 => some text
  | [], _ + 1 => none
  | character :: text, start + 1 =>
    if (String.utf8EncodeChar character).length ≤ start + 1 then
      textFrom text (start + 1 - (String.utf8EncodeChar character).length)
    else none

/-- How many of the entries the loop of `dropping_fixed_entries` goes over. -/
def firstRemaining (covered byteCount : Nat) : List DictionaryEntry → Nat
  | [] => 0
  | entry :: rest =>
    let next := covered + (utf8 entry.word).length
    if byteCount < next then 0 else firstRemaining next byteCount rest + 1

section
variable {F : Type} (unicode : UnicodeTable)

def dropGraphemes (value : Text) (count : Nat) : Option Text :=
  if count ≤ (graphemes unicode value).length then
    some ((graphemes unicode value).drop count).flatten
  else none

/-- `fixedRequest` with each slice, subtraction and `expect` of the source as a step of its own;
`none` where one of them panics. -/
def checkedFixedRequest (request : ZenzEvaluationRequest F) : Option (FixedRequest F) :=
  match request.prefixConstraint.fixedPrefix with
  | none => some .asIs
  | some ⟨byteCount, rubyCount⟩ =>
    if byteCount = 0 ∨ (utf8 request.candidate.text).length < byteCount ∨
        request.prefixConstraint.bytes.length < byteCount then
      some .asIs
    else do
      let start ← sliceTo request.prefixConstraint.bytes byteCount
      if ¬start.isPrefixOf (utf8 request.candidate.text) ∨
          (graphemes unicode request.input).length < rubyCount ∨
          request.inputCursorPosition.any fun position => decide (position < rubyCount) then
        return .asIs
      else
        let fixed ← sliceTo request.prefixConstraint.bytes byteCount
        match fromUtf8 fixed with
        | none => return .invalid (.message ("fixed prefix is not UTF-8: " ++ utf8Error fixed))
        | some fixedText =>
          let input ← dropGraphemes unicode request.input rubyCount
          let text ← textFrom request.candidate.text byteCount
          let entries ← sliceFrom request.candidate.entries
            (firstRemaining 0 byteCount request.candidate.entries)
          let bytes ← sliceFrom request.prefixConstraint.bytes byteCount
          let inputCursorPosition ← request.inputCursorPosition.mapM fun position =>
            Input.checkedSub position rubyCount
          return .behind fixed fixedText {
            input
            inputCursorPosition
            candidate := { request.candidate with text, entries }
            requestRichCandidates := request.requestRichCandidates
            prefixConstraint := { request.prefixConstraint with bytes, fixedPrefix := none }
            personalization := request.personalization
            version := appendingLeftContext request.version fixedText }

end

theorem utf8EncodeChar_pos (character : Char) : 0 < (String.utf8EncodeChar character).length := by
  obtain ⟨lead, tail, hencode, -⟩ := Dictionary.decodeFirst_encode character
  rw [hencode]
  exact Nat.zero_lt_succ _

theorem textFrom_append (start rest : Text) :
    textFrom (start ++ rest) (utf8 start).length = some rest := by
  induction start with
  | nil => cases rest <;> rfl
  | cons character start ih =>
    have hpos := utf8EncodeChar_pos character
    have hlength : (utf8 (character :: start)).length =
        ((String.utf8EncodeChar character).length + (utf8 start).length - 1) + 1 := by
      rw [utf8_cons, List.length_append]
      omega
    rw [hlength, List.cons_append, textFrom, if_pos (by omega)]
    have hrest : (String.utf8EncodeChar character).length + (utf8 start).length - 1 + 1 -
        (String.utf8EncodeChar character).length = (utf8 start).length := by omega
    rw [hrest, ih]

theorem sliceFrom_firstRemaining (covered byteCount : Nat) (entries : List DictionaryEntry) :
    sliceFrom entries (firstRemaining covered byteCount entries) =
      some (droppingFixedEntries covered byteCount entries) := by
  induction entries generalizing covered with
  | nil => rfl
  | cons entry rest ih =>
    rw [firstRemaining, droppingFixedEntries]
    split
    · rfl
    · simpa [sliceFrom] using ih (covered + (utf8 entry.word).length)

theorem utf8_of_fromUtf8 {bytes : Bytes} {text : Text} (h : fromUtf8 bytes = some text) :
    utf8 text = bytes := by
  rw [fromUtf8] at h
  split at h
  · next hsame =>
    obtain rfl := Option.some.inj h
    exact hsame
  · cases h

theorem fromUtf8_utf8 (text : Text) : fromUtf8 (utf8 text) = some text := by
  rw [fromUtf8, Dictionary.fromUtf8Lossy_utf8, if_pos rfl]

section
variable {F : Type} {unicode : UnicodeTable}

/-- No slice, subtraction or `expect` of it panics, whatever is evaluated. -/
theorem checkedFixedRequest_eq (request : ZenzEvaluationRequest F) :
    checkedFixedRequest unicode request = some (fixedRequest unicode request) := by
  rw [checkedFixedRequest, fixedRequest]
  cases request.prefixConstraint.fixedPrefix with
  | none => rfl
  | some fixedPrefix =>
    obtain ⟨byteCount, rubyCount⟩ := fixedPrefix
    dsimp only
    by_cases hshort : byteCount = 0 ∨ (utf8 request.candidate.text).length < byteCount ∨
        request.prefixConstraint.bytes.length < byteCount
    · rw [if_pos hshort, if_pos (by tauto)]
    · have hbytes : byteCount ≤ request.prefixConstraint.bytes.length := by omega
      have hstart : sliceTo request.prefixConstraint.bytes byteCount =
          some (request.prefixConstraint.bytes.take byteCount) := by
        rw [sliceTo, if_pos hbytes]
      rw [if_neg hshort, hstart, Option.bind_eq_bind, Option.bind_some]
      by_cases hapart : ¬(request.prefixConstraint.bytes.take byteCount).isPrefixOf
          (utf8 request.candidate.text) = true ∨
            (graphemes unicode request.input).length < rubyCount ∨
          (request.inputCursorPosition.any fun position => decide (position < rubyCount)) = true
      · rw [if_pos hapart, if_pos (by tauto)]
        rfl
      · rw [if_neg hapart, if_neg (by tauto), Option.bind_some]
        cases htext : fromUtf8 (request.prefixConstraint.bytes.take byteCount) with
        | none => rfl
        | some fixedText =>
          simp only [not_or, not_not, List.isPrefixOf_iff_prefix, not_lt] at hapart
          obtain ⟨hleads, hinput, hcursor⟩ := hapart
          have hfixed := utf8_of_fromUtf8 htext
          rw [← hfixed] at hleads
          -- the fixed bytes are a text, so what comes behind them starts with a character
          obtain ⟨rest, hrest⟩ := Dictionary.prefix_of_utf8 hleads
          have hlength : byteCount = (utf8 fixedText).length := by
            rw [hfixed, List.length_take, min_eq_left hbytes]
          have hbehind : textFrom request.candidate.text byteCount = some rest := by
            rw [hlength, ← hrest, textFrom_append]
          have hlossy : Dictionary.fromUtf8Lossy ((utf8 request.candidate.text).drop byteCount) =
              rest := by
            rw [hlength, ← hrest, utf8_append, List.drop_left, Dictionary.fromUtf8Lossy_utf8]
          have hgraphemes : dropGraphemes unicode request.input rubyCount =
              some ((graphemes unicode request.input).drop rubyCount).flatten := by
            rw [dropGraphemes, if_pos hinput]
          have hdrained : sliceFrom request.prefixConstraint.bytes byteCount =
              some (request.prefixConstraint.bytes.drop byteCount) := by
            rw [sliceFrom, if_pos hbytes]
          have hposition : (request.inputCursorPosition.mapM fun position =>
              Input.checkedSub position rubyCount) =
                some (request.inputCursorPosition.map fun position => position - rubyCount) := by
            cases hsome : request.inputCursorPosition with
            | none => rfl
            | some position =>
              rw [hsome, Option.any_some, decide_eq_true_eq, not_lt] at hcursor
              simp [Input.checkedSub, hcursor]
          dsimp only
          rw [hgraphemes, hbehind, sliceFrom_firstRemaining, hdrained, hposition, hlossy]
          rfl

end

/-! ### Constraints led by an accepted spelling -/

namespace PrefixConstraint
variable {constraint : PrefixConstraint} {fixed candidate : Bytes}

theorem prefix_of_isSatisfiedBy (h : constraint.isSatisfiedBy candidate = true) :
    constraint.bytes <+: candidate := by
  rw [isSatisfiedBy] at h
  split at h
  · rw [of_decide_eq_true h]
  · exact List.isPrefixOf_iff_prefix.mp h

/-- What keeps to a fixed prefix starts with it, or is shorter. -/
theorem prefix_of_matchesFixedPrefix {rubyCount : Nat}
    (hfixed : constraint.fixedPrefix = some ⟨fixed.length, rubyCount⟩)
    (hbytes : fixed <+: constraint.bytes) (h : constraint.matchesFixedPrefix candidate = true) :
    fixed <+: candidate ∨ candidate <+: fixed := by
  have htake : constraint.bytes.take fixed.length = fixed :=
    (List.prefix_iff_eq_take.mp hbytes).symm
  rw [matchesFixedPrefix, hfixed] at h
  simp only [if_pos hbytes.length_le, htake, decide_eq_true_eq] at h
  rcases Nat.le_total fixed.length candidate.length with hle | hle
  · rw [min_eq_right hle, List.take_length] at h
    exact .inl (List.prefix_iff_eq_take.mpr h)
  · rw [min_eq_left hle, List.take_length] at h
    exact .inr (List.prefix_iff_eq_take.mpr h.symm)

end PrefixConstraint

theorem beforeSeparator_skip {lead : UInt8} {separator bytes : Bytes}
    (h : ∀ byte ∈ bytes, byte ≠ lead) (rest : Bytes) :
    beforeSeparator (lead :: separator) (bytes ++ rest) =
      (beforeSeparator (lead :: separator) rest).map (bytes ++ ·) := by
  induction bytes with
  | nil => simp
  | cons byte bytes ih =>
    obtain ⟨hbyte, hbytes⟩ := List.forall_mem_cons.mp h
    have hnone : (lead :: separator).isPrefixOf (byte :: (bytes ++ rest)) = false := by
      rw [List.isPrefixOf_cons_cons, beq_false_of_ne hbyte.symm, Bool.false_and]
    rw [List.cons_append, beforeSeparator, if_neg (by rw [hnone]; exact Bool.false_ne_true),
      ih hbytes, Option.map_map]
    rfl

theorem beforeSeparator_utf8 {text : Text} (h : alignmentSeparator ∉ text) (rest : Bytes) :
    beforeSeparator (utf8 [alignmentSeparator]) (utf8 text ++ rest) =
      (beforeSeparator (utf8 [alignmentSeparator]) rest).map (utf8 text ++ ·) := by
  have hseparator : utf8 [alignmentSeparator] = [0xee, 0xb8, 0x88] := by decide
  induction text with
  | nil => simp [utf8]
  | cons character text ih =>
    rw [List.mem_cons, not_or] at h
    obtain ⟨lead, tail, hencode, hdecode⟩ := Dictionary.decodeFirst_encode character
    have htail : ∀ byte ∈ tail, byte ≠ 0xee := by
      rintro byte hin rfl
      have hlt : (0xee : UInt8).toNat < 192 := by
        apply @Dictionary.tail_utf8EncodeChar character
        rw [hencode]
        exact hin
      exact absurd hlt (by decide)
    have hapart : ¬(utf8 [alignmentSeparator]).isPrefixOf (lead :: (tail ++ (utf8 text ++ rest))) =
        true := by
      rw [List.isPrefixOf_iff_prefix]
      rintro ⟨after, hafter⟩
      obtain ⟨first, further, hfirst, hsame⟩ := Dictionary.decodeFirst_encode alignmentSeparator
      rw [utf8_cons, hfirst, List.cons_append, List.cons_append, List.append_assoc] at hafter
      obtain ⟨rfl, htails⟩ := List.cons.inj hafter
      have hread := hdecode (utf8 text ++ rest)
      rw [← htails, hsame] at hread
      exact h.1 (Prod.mk.inj hread).1
    rw [utf8_cons character text, hencode, List.cons_append, List.cons_append, List.append_assoc,
      beforeSeparator, if_neg hapart, hseparator, beforeSeparator_skip htail, ← hseparator, ih h.2,
      Option.map_map, Option.map_map]
    congr 1
    funext bytes
    simp

theorem normalized_bytes {text : Text} (h : alignmentSeparator ∉ text) (rest : Bytes)
    (hasEos ignores : Bool) :
    utf8 text <+: (PrefixConstraint.normalized (utf8 text ++ rest) hasEos ignores).bytes := by
  rw [PrefixConstraint.normalized, beforeSeparator_utf8 h]
  cases beforeSeparator (utf8 [alignmentSeparator]) rest with
  | none => exact List.prefix_append _ _
  | some before => exact List.prefix_append _ _

structure Fixes (unicode : UnicodeTable) (accepted : Candidate) (constraint : PrefixConstraint) :
    Prop where
  bytes : utf8 accepted.dictionaryText <+: constraint.bytes
  fixedPrefix : constraint.fixedPrefix =
    some ⟨(utf8 accepted.dictionaryText).length, (graphemes unicode accepted.reading).length⟩

def KeepsTo (accepted candidate : Candidate) : Prop :=
  utf8 accepted.dictionaryText <+: utf8 candidate.text ∨
    utf8 candidate.text <+: utf8 accepted.dictionaryText

theorem KeepsTo.starts {accepted candidate : Candidate} (h : KeepsTo accepted candidate)
    (hle : (utf8 accepted.dictionaryText).length ≤ (utf8 candidate.text).length) :
    utf8 accepted.dictionaryText <+: utf8 candidate.text := by
  rcases h with hstarts | hshorter
  · exact hstarts
  · rw [hshorter.eq_of_length (le_antisymm hshorter.length_le hle)]

section
variable {F : Type} {unicode : UnicodeTable} {accepted : Candidate} {constraint : PrefixConstraint}

theorem constrainZenzPrefix_fixes {session : ConversionSession}
    (h : session.acceptedPredictionNow = some accepted) (constraint : PrefixConstraint) :
    Fixes unicode accepted (session.constrainZenzPrefix unicode constraint) := by
  rw [ConversionSession.constrainZenzPrefix, h]
  refine ⟨?_, rfl⟩
  dsimp only
  split
  · next hleads => exact List.isPrefixOf_iff_prefix.mp hleads
  · exact List.prefix_refl _

/-- The drafts keep to the accepted spelling: those that the constraint does not bind, too. -/
theorem draft_keepsTo {call : ConversionCall unicode F}
    (haccepted : call.session.acceptedPredictionNow = some accepted) {nBest : Nat}
    {draft : List Candidate} (h : call.draft nBest constraint = some draft) {candidate : Candidate}
    (hin : candidate ∈ draft) : KeepsTo accepted candidate := by
  rw [ConversionCall.draft, ConversionSession.requestZenzDraft] at h
  obtain ⟨converted, hconverted, rfl⟩ := Option.map_eq_some_iff.mp h
  obtain ⟨found, hfound, rfl⟩ := List.mem_map.mp hin
  have hfixes : Fixes unicode accepted (call.session.constrainZenzPrefix unicode constraint) :=
    constrainZenzPrefix_fixes haccepted constraint
  generalize call.session.constrainZenzPrefix unicode constraint = constrained at *
  cases hempty : constrained.isEmpty with
  | true =>
    simp only [PrefixConstraint.isEmpty, Bool.and_eq_true, List.isEmpty_iff] at hempty
    have hnil := hfixes.bytes
    rw [hempty.1, List.prefix_nil] at hnil
    exact .inl (hnil ▸ List.nil_prefix)
  | false =>
    obtain ⟨-, node, -, -, -, hallowed⟩ := convert_allowed hconverted hfound
      (show (if constrained.isEmpty then none else some constrained) = some constrained by
        rw [hempty]; rfl)
    split at hallowed
    · exact .inl (hfixes.bytes.trans (PrefixConstraint.prefix_of_isSatisfiedBy hallowed))
    · exact PrefixConstraint.prefix_of_matchesFixedPrefix hfixes.fixedPrefix hfixes.bytes hallowed

/-- No word for the start of the text is a beginning of the spelling, other than the spelling. -/
def NoneBegins {unicode : UnicodeTable} (lookups : Lookups unicode)
    (additionalEntries : List DictionaryEntry) (composing : Input.ComposingText) (spelling : Text) :
    Prop :=
  ∀ entries, surfaceEntries lookups additionalEntries composing.surface.length
    (katakanaGraphemes unicode composing) 0 = some entries →
      ∀ found ∈ entries, found.1.word <+: spelling → found.1.word = spelling

/-- Where no word begins the spelling, no draft is shorter. -/
theorem draft_asLong {call : ConversionCall unicode F}
    (haccepted : call.session.acceptedPredictionNow = some accepted)
    (hnone : NoneBegins call.lookups call.additionalEntries call.session.composing
      accepted.dictionaryText) {nBest : Nat}
    {draft : List Candidate} (h : call.draft nBest constraint = some draft) {candidate : Candidate}
    (hin : candidate ∈ draft) :
    (utf8 accepted.dictionaryText).length ≤ (utf8 candidate.text).length := by
  rcases draft_keepsTo haccepted h hin with hstarts | hshorter
  · exact hstarts.length_le
  · rw [ConversionCall.draft, ConversionSession.requestZenzDraft] at h
    obtain ⟨converted, hconverted, rfl⟩ := Option.map_eq_some_iff.mp h
    obtain ⟨found, hfound, rfl⟩ := List.mem_map.mp hin
    obtain ⟨-, results, path, hresults, hpath, rfl⟩ := mem_convert hconverted hfound
    obtain ⟨entries, entry, last, hentries, hentry, hfirst⟩ := latticeResults_first hresults hpath
    have hbegins : utf8 entry.word <+: utf8 (makeCandidate call.lookups call.meaningCost
        call.session.context path).text := by
      rw [utf8_makeCandidate]
      exact hfirst
    have hspelling := hnone entries hentries _ hentry
      (Dictionary.prefix_of_utf8 (hbegins.trans hshorter))
    rw [← hspelling]
    exact hbegins.length_le

/-! ### A conversion -/

/-- The accepted spelling leads the constraint that a draft or a review is under: a draft is bound
to the spelling whatever is asked. -/
def Question.Led (unicode : UnicodeTable) (session : ConversionSession) (accepted : Candidate) :
    Question F → Prop
  | .draft _ constraint =>
    utf8 accepted.dictionaryText <+: (session.constrainZenzPrefix unicode constraint).bytes
  | .evaluate request => utf8 accepted.dictionaryText <+: request.prefixConstraint.bytes

def Question.AsLong (accepted : Candidate) : Question F → Prop
  | .draft _ _ => True
  | .evaluate request =>
    (utf8 accepted.dictionaryText).length ≤ (utf8 request.candidate.text).length

/-- The spelling leads every constraint, and the candidate that is reported. -/
structure KeepsSpelling (unicode : UnicodeTable) (session : ConversionSession)
    (accepted : Candidate)
    (log : Log (Question F) Question.Answer) (value : Option Converted) : Prop where
  constraints : ∀ event ∈ log, event.1.Led unicode session accepted
  reported : ∀ converted candidate, value = some converted →
    converted.reviewed = .ok (some candidate) → accepted.dictionaryText <+: candidate.text

/-- No separator is in the spelling, and its reading fits into the model's input and into what
stands before the cursor. -/
structure HasRoom (unicode : UnicodeTable) (accepted : Candidate) (input : ConversionInput F) :
    Prop where
  plain : alignmentSeparator ∉ accepted.dictionaryText
  reading : (graphemes unicode accepted.reading).length ≤
    (graphemes unicode input.modelInput).length
  cursor : ∀ position ∈ input.inputCursorPosition,
    (graphemes unicode accepted.reading).length ≤ position

variable {input : ConversionInput F} {session : ConversionSession}

theorem fixedRequest_behind (hroom : HasRoom unicode accepted input)
    (hne : accepted.dictionaryText ≠ []) (hfixes : Fixes unicode accepted constraint)
    {candidate : Candidate} (hstarts : utf8 accepted.dictionaryText <+: utf8 candidate.text) :
    ∃ remaining, fixedRequest unicode (input.request constraint candidate) =
      .behind (utf8 accepted.dictionaryText) accepted.dictionaryText remaining := by
  have htake : constraint.bytes.take (utf8 accepted.dictionaryText).length =
      utf8 accepted.dictionaryText := (List.prefix_iff_eq_take.mp hfixes.bytes).symm
  have hpos : (utf8 accepted.dictionaryText).length ≠ 0 := by
    intro hzero
    have hnil := fromUtf8_utf8 accepted.dictionaryText
    rw [List.length_eq_zero_iff.mp hzero] at hnil
    exact hne (Option.some.inj hnil).symm
  have hcursor : (input.inputCursorPosition.any fun position =>
      decide (position < (graphemes unicode accepted.reading).length)) = false := by
    cases hposition : input.inputCursorPosition with
    | none => rfl
    | some position => exact decide_eq_false (not_lt.mpr (hroom.cursor position hposition))
  have hbehind : ¬((utf8 accepted.dictionaryText).length = 0 ∨
      (utf8 candidate.text).length < (utf8 accepted.dictionaryText).length ∨
      constraint.bytes.length < (utf8 accepted.dictionaryText).length ∨
      ¬(utf8 accepted.dictionaryText).isPrefixOf (utf8 candidate.text) = true ∨
      (graphemes unicode input.modelInput).length < (graphemes unicode accepted.reading).length ∨
      (input.inputCursorPosition.any fun position =>
        decide (position < (graphemes unicode accepted.reading).length)) = true) := by
    simp only [not_or, not_lt, not_not, List.isPrefixOf_iff_prefix, hcursor, Bool.false_eq_true,
      not_false_eq_true]
    exact ⟨hpos, hstarts.length_le, hfixes.bytes.length_le, hstarts, hroom.reading, trivial⟩
  rw [fixedRequest, show (input.request constraint candidate).prefixConstraint =
    constraint from rfl,
    hfixes.fixedPrefix]
  dsimp only [ConversionInput.request]
  simp only [htake, if_neg hbehind, fromUtf8_utf8]
  exact ⟨_, rfl⟩

/-- The constraint after a rejection is led as the one that the rejection gave. -/
theorem reviewRejection_fixes {next : PrefixConstraint} (h : Fixes unicode accepted next)
    (candidates : List Candidate) (index : Nat) (candidate : Candidate) :
    Fixes unicode accepted (reviewRejection constraint next candidates index candidate).2 := by
  rw [reviewRejection]
  dsimp only
  split
  · next hsame =>
    subst hsame
    split
    · exact ⟨h.bytes, h.fixedPrefix⟩
    · exact h
  · split
    · exact h
    · exact h

/-- What the converter and the evaluator may answer: drafts that keep to the spelling, and reviews
of what stands behind it with the spelling put in front again. -/
def MayKeep (unicode : UnicodeTable) (accepted : Candidate) (_ : Log (Question F) Question.Answer) :
    (question : Question F) → question.Answer → Prop
  | .draft _ _, drafted => ∀ draft, drafted = some draft → ∀ candidate ∈ draft,
      KeepsTo accepted candidate
  | .evaluate request, result => ∀ fixed fixedText remaining evaluation,
      fixedRequest unicode request = .behind fixed fixedText remaining → result = .ok evaluation →
        ∃ behind, evaluation = prependFixed fixed fixedText behind

/-- What the loops keep, as long as no shorter candidate is evaluated. -/
structure Follows (unicode : UnicodeTable) (session : ConversionSession) (accepted : Candidate)
    (log : Log (Question F) Question.Answer) (constraint : PrefixConstraint) : Prop where
  constraints : ∀ event ∈ log, event.1.Led unicode session accepted
  fixes : Fixes unicode accepted constraint

/-- The end of a program, if no shorter candidate was evaluated. -/
abbrev KeepsIfLong (unicode : UnicodeTable) (session : ConversionSession) (accepted : Candidate)
    (log : Log (Question F) Question.Answer) (value : Option Converted) : Prop :=
  (∀ event ∈ log, event.1.AsLong accepted) → KeepsSpelling unicode session accepted log value

section
variable {log : Log (Question F) Question.Answer}

theorem Follows.unreported (h : (∀ event ∈ log, event.1.AsLong accepted) →
      Follows unicode session accepted log constraint) {value : Option Converted}
    (hvalue : ∀ converted candidate, value = some converted →
      converted.reviewed ≠ .ok (some candidate)) :
    KeepsIfLong unicode session accepted log value :=
  fun hlong => ⟨(h hlong).constraints, fun converted candidate hconverted hreviewed =>
    absurd hreviewed (hvalue converted candidate hconverted)⟩

/-- What is in front of the next constraint stays there. -/
theorem Follows.normalized (h : Follows unicode session accepted log constraint)
    (hplain : alignmentSeparator ∉ accepted.dictionaryText) {bytes : Bytes}
    (hbytes : utf8 accepted.dictionaryText <+: bytes) (hasEos ignores : Bool) :
    Follows unicode session accepted log
      { PrefixConstraint.normalized bytes hasEos ignores with
        fixedPrefix := constraint.fixedPrefix } := by
  obtain ⟨more, rfl⟩ := hbytes
  exact ⟨h.constraints, normalized_bytes hplain more hasEos ignores, h.fixes.fixedPrefix⟩

/-- A candidate that starts with the spelling is reported, and only drafts come behind. -/
theorem Follows.reported (h : Follows unicode session accepted log constraint)
    (haccepted : session.acceptedPredictionNow = some accepted) {candidate : Candidate}
    {after : Log (Question F) Question.Answer} {value : Option Converted}
    (hdrafts : ∀ event ∈ after, event.1.IsDraft)
    (hstarts : utf8 accepted.dictionaryText <+: utf8 candidate.text)
    (hvalue : ∀ converted, value = some converted → converted.reviewed = .ok (some candidate)) :
    KeepsSpelling unicode session accepted (log ++ after) value := by
  constructor
  · rw [List.forall_mem_append]
    refine ⟨h.constraints, fun event hin => ?_⟩
    have hdraft := hdrafts event hin
    obtain ⟨question, answer⟩ := event
    cases question with
    | draft nBest constraint => exact (constrainZenzPrefix_fixes haccepted constraint).bytes
    | evaluate request => exact absurd hdraft id
  · intro converted reported hconverted hreviewed
    have hsame := (hvalue converted hconverted).symm.trans hreviewed
    cases hsame
    exact Dictionary.prefix_of_utf8 hstarts

theorem searchDraft_keeps (haccepted : session.acceptedPredictionNow = some accepted)
    {constructed inserted : List Candidate} {goOn : Review → Asks F Converted}
    (h : (∀ event ∈ log, event.1.AsLong accepted) →
      Follows unicode session accepted log constraint)
    (hgoOn : ∀ log review, ((∀ event ∈ log, event.1.AsLong accepted) →
        Follows unicode session accepted log review.constraint ∧
          KeepsTo accepted review.candidate) →
      Program.Ensures (MayKeep unicode accepted) log (goOn review)
        (KeepsIfLong unicode session accepted)) :
    Program.Ensures (MayKeep unicode accepted) log
      (searchDraft input constraint constructed inserted goOn)
      (KeepsIfLong unicode session accepted) := by
  intro drafted hdrafted
  have hasked : ∀ {asked : Nat}, (∀ event ∈ log ++ [⟨.draft asked constraint, drafted⟩],
      event.1.AsLong accepted) → Follows unicode session accepted
        (log ++ [⟨.draft asked constraint, drafted⟩]) constraint := by
    intro asked hlong
    have hkept := h fun event hin => hlong event (List.mem_append_left _ hin)
    refine ⟨?_, hkept.fixes⟩
    rw [List.forall_mem_append, List.forall_mem_singleton]
    exact ⟨hkept.constraints, (constrainZenzPrefix_fixes haccepted constraint).bytes⟩
  cases drafted with
  | none => exact Follows.unreported hasked fun _ _ hvalue => nomatch hvalue
  | some draft =>
    dsimp only
    cases hbest : bestCandidate draft with
    | none =>
      apply Follows.unreported hasked
      rintro converted candidate hvalue hreviewed
      cases hvalue
      cases hreviewed
    | some best =>
      apply hgoOn
      intro hlong
      exact ⟨hasked hlong, hdrafted draft rfl _ (mem_bestCandidate hbest)⟩

theorem rejected_keeps (haccepted : session.acceptedPredictionNow = some accepted)
    {next : PrefixConstraint} {review : Review} {goOn : Review → Asks F Converted}
    (h : (∀ event ∈ log, event.1.AsLong accepted) → Follows unicode session accepted log
      { next with fixedPrefix := review.constraint.fixedPrefix })
    (hgoOn : ∀ log review, ((∀ event ∈ log, event.1.AsLong accepted) →
        Follows unicode session accepted log review.constraint ∧
          KeepsTo accepted review.candidate) →
      Program.Ensures (MayKeep unicode accepted) log (goOn review)
        (KeepsIfLong unicode session accepted)) :
    Program.Ensures (MayKeep unicode accepted) log (rejected input next review goOn)
      (KeepsIfLong unicode session accepted) := by
  have hafter : ∀ {action after}, reviewRejection review.constraint
      { next with fixedPrefix := review.constraint.fixedPrefix } review.draft review.candidateIndex
      review.candidate = (action, after) → (∀ event ∈ log, event.1.AsLong accepted) →
        Follows unicode session accepted log after := by
    intro action after hrejected hlong
    refine ⟨(h hlong).constraints, ?_⟩
    have hfixes := @reviewRejection_fixes _ _ review.constraint _ (h hlong).fixes review.draft
      review.candidateIndex review.candidate
    rw [hrejected] at hfixes
    exact hfixes
  rw [rejected]
  split
  · next after hrejected =>
    apply Follows.unreported (hafter hrejected)
    rintro converted candidate hvalue hreviewed
    cases hvalue
    cases hreviewed
  · next index candidate after hrejected =>
    apply hgoOn
    intro hlong
    have hsatisfied := PrefixConstraint.prefix_of_isSatisfiedBy (reviewRejection_retry hrejected).2
    exact ⟨hafter hrejected hlong, .inl ((h hlong).fixes.bytes.trans hsatisfied)⟩
  · next after hrejected => exact searchDraft_keeps haccepted (hafter hrejected) hgoOn

theorem evaluated_keeps (hroom : HasRoom unicode accepted input)
    (hne : accepted.dictionaryText ≠ [])
    {review : Review} {result : Except ZenzInferenceError (CandidateEvaluation F)}
    (h : (∀ event ∈ log, event.1.AsLong accepted) →
      Follows unicode session accepted log review.constraint ∧ KeepsTo accepted review.candidate)
    (hmay : MayKeep unicode accepted log
      (.evaluate (input.request review.constraint review.candidate)) result)
    (hlong : ∀ event ∈ log ++
      [⟨.evaluate (input.request review.constraint review.candidate), result⟩],
      event.1.AsLong accepted) :
    Follows unicode session accepted (log ++
        [⟨.evaluate (input.request review.constraint review.candidate), result⟩])
        review.constraint ∧
      utf8 accepted.dictionaryText <+: utf8 review.candidate.text ∧
      ∀ evaluation, result = .ok evaluation → ∃ behind,
        evaluation = prependFixed (utf8 accepted.dictionaryText)
          accepted.dictionaryText behind := by
  rw [List.forall_mem_append, List.forall_mem_singleton] at hlong
  obtain ⟨hfollows, hkeeps⟩ := h hlong.1
  have hstarts := hkeeps.starts hlong.2
  obtain ⟨remaining, hbehind⟩ := fixedRequest_behind hroom hne hfollows.fixes hstarts
  refine ⟨⟨?_, hfollows.fixes⟩, hstarts, fun evaluation => hmay _ _ _ _ hbehind⟩
  rw [List.forall_mem_append, List.forall_mem_singleton]
  exact ⟨hfollows.constraints, hfollows.fixes.bytes⟩

theorem reviewLoop_keeps {arithmetic : Arithmetic F} {quarter half : F}
    (haccepted : session.acceptedPredictionNow = some accepted)
    (hroom : HasRoom unicode accepted input) (hne : accepted.dictionaryText ≠ [])
    (remaining : Nat) (review : Review)
    (h : (∀ event ∈ log, event.1.AsLong accepted) →
      Follows unicode session accepted log review.constraint ∧ KeepsTo accepted review.candidate) :
    Program.Ensures (MayKeep unicode accepted) log
      (reviewLoop arithmetic quarter half input remaining review)
      (KeepsIfLong unicode session accepted) := by
  induction remaining generalizing log review with
  | zero =>
    apply Follows.unreported fun hlong => (h hlong).1
    rintro converted candidate hvalue hreviewed
    cases hvalue
    cases hreviewed
  | succ remaining ih =>
    rw [reviewLoop]
    dsimp only
    split
    · apply Follows.unreported fun hlong => (h hlong).1
      rintro converted candidate hvalue hreviewed
      cases hvalue
      cases hreviewed
    · intro result hmay
      have hevaluated := evaluated_keeps hroom hne h hmay
      cases result with
      | error error =>
        apply Follows.unreported fun hlong => (hevaluated hlong).1
        rintro converted candidate hvalue hreviewed
        cases hvalue
        cases hreviewed
      | ok evaluation =>
        cases evaluation with
        | pass score alternatives =>
          have hreported : ∀ (after : Log (Question F) Question.Answer) (value : Option Converted),
              (∀ event ∈ after, event.1.IsDraft) →
              (∀ converted, value = some converted →
                converted.reviewed = .ok (some review.candidate)) →
              KeepsIfLong unicode session accepted (log ++ [⟨.evaluate (input.request
                review.constraint review.candidate), .ok (.pass score alternatives)⟩] ++ after)
                value := by
            intro after value hdrafts hvalue hlong
            rw [List.forall_mem_append] at hlong
            obtain ⟨hfollows, hstarts, -⟩ := hevaluated hlong.1
            exact hfollows.reported haccepted hdrafts hstarts hvalue
          dsimp only
          split
          · apply Program.Ensures.bind
            apply (insertRichCandidates_ensures _ _ _).mono
            rintro whole inserted ⟨after, rfl, hdrafts⟩
            apply hreported after _ hdrafts
            intro converted hfinished
            obtain ⟨inserted, -, rfl⟩ := Option.map_eq_some_iff.mp hfinished
            rfl
          · have hplain := fun value => hreported [] value fun _ hin => absurd hin List.not_mem_nil
            simp only [List.append_nil] at hplain
            apply hplain
            intro converted hvalue
            cases hvalue
            rfl
        | fixRequired bytes =>
          apply rejected_keeps haccepted _ fun log review => ih review
          intro hlong
          obtain ⟨hfollows, -, hfront⟩ := hevaluated hlong
          obtain ⟨behind, hbehind⟩ := hfront _ rfl
          cases behind with
          | pass score alternatives => cases hbehind
          | fixRequired more =>
            cases hbehind
            exact hfollows.normalized hroom.plain (List.prefix_append _ _) _ _
          | wholeResult more => cases hbehind
        | wholeResult whole =>
          apply rejected_keeps haccepted _ fun log review => ih review
          intro hlong
          obtain ⟨hfollows, -, hfront⟩ := hevaluated hlong
          obtain ⟨behind, hbehind⟩ := hfront _ rfl
          cases behind with
          | pass score alternatives => cases hbehind
          | fixRequired more => cases hbehind
          | wholeResult more =>
            cases hbehind
            apply hfollows.normalized hroom.plain
            rw [utf8_append]
            exact List.prefix_append _ _

theorem convert_keeps {arithmetic : Arithmetic F} {quarter half : F}
    {tables : Input.InputTableRegistry} {cache : ZenzConversionCache}
    {options : ZenzConversionOptions F}
    (haccepted : session.acceptedPredictionNow = some accepted)
    (hroom : HasRoom unicode accepted (conversionInput tables session cache options))
    (hne : accepted.dictionaryText ≠ []) :
    Program.Ensures (MayKeep unicode accepted) []
      (convert arithmetic quarter half unicode tables session cache options)
      (KeepsIfLong unicode session accepted) := by
  apply searchDraft_keeps haccepted
  · intro _
    exact ⟨fun _ hin => absurd hin List.not_mem_nil, constrainZenzPrefix_fixes haccepted _⟩
  · exact fun log review => reviewLoop_keeps haccepted hroom hne _ review

end

theorem conversionService_keeps {arithmetic : Arithmetic F} {model : ZenzLanguageModel F}
    {call : ConversionCall unicode F}
    (haccepted : call.session.acceptedPredictionNow = some accepted)
    (log : Log (Question F) Question.Answer) (evaluator : ZenzEvaluator F) (question : Question F) :
    MayKeep unicode accepted log question
      (conversionService unicode arithmetic model call.draft evaluator question).1 := by
  cases question with
  | draft nBest constraint => exact fun draft hdraft candidate => draft_keepsTo haccepted hdraft
  | evaluate request =>
    intro fixed fixedText remaining evaluation hfixed hresult
    rw [conversionService, ZenzEvaluator.evaluate, hfixed] at hresult
    obtain ⟨behind, -, rfl⟩ : ∃ behind,
        (evaluator.evaluateAsIs unicode arithmetic model remaining).1 = .ok behind ∧
          prependFixed fixed fixedText behind = evaluation := by
      dsimp only at hresult
      cases hbehind : (evaluator.evaluateAsIs unicode arithmetic model remaining).1 with
      | error error =>
        rw [hbehind] at hresult
        cases hresult
      | ok behind =>
        rw [hbehind] at hresult
        exact ⟨behind, rfl, Except.ok.inj hresult⟩
    exact ⟨behind, rfl⟩

/-- Where no word begins the spelling, no shorter candidate is evaluated. -/
theorem run_asLong {arithmetic : Arithmetic F} {model : ZenzLanguageModel F} {quarter half : F}
    {call : ConversionCall unicode F}
    (haccepted : call.session.acceptedPredictionNow = some accepted)
    (hnone : NoneBegins call.lookups call.additionalEntries call.session.composing
      accepted.dictionaryText) (evaluator : ZenzEvaluator F) :
    ∀ event ∈ (call.run arithmetic model quarter half evaluator).log,
      event.1.AsLong accepted := by
  have hreviews := (convert_reviews.run (fun _ _ => True) (fun log state question _ => by
    refine ⟨?_, trivial⟩
    cases question with
    | draft nBest constraint =>
      exact fun draft hdraft candidate hin => draft_asLong haccepted hnone hdraft hin
    | evaluate request => trivial) trivial :
      ReviewsOnly (fun candidate =>
        (utf8 accepted.dictionaryText).length ≤ (utf8 candidate.text).length)
        (call.run arithmetic model quarter half evaluator).log
        (call.run arithmetic model quarter half evaluator).value ∧ _).1
  rintro ⟨question, answer⟩ hin
  cases question with
  | draft nBest constraint => trivial
  | evaluate request => exact hreviews _ hin

/-- The accepted spelling leads every constraint of a conversion and what it reports, as long as the
evaluator has room for the spelling and no shorter candidate is evaluated, as where no word begins
the spelling; and no evaluation behind a fixed prefix panics. -/
theorem convert_keeps_spelling (arithmetic : Arithmetic F) (model : ZenzLanguageModel F)
    (quarter half : F) (evaluator : ZenzEvaluator F) (call : ConversionCall unicode F)
    (haccepted : call.session.acceptedPredictionNow = some accepted) :
    let ran := call.run arithmetic model quarter half evaluator
    ((accepted.dictionaryText = [] ∨
        HasRoom unicode accepted
          (conversionInput call.tables call.session call.cache call.options) ∧
        (NoneBegins call.lookups call.additionalEntries call.session.composing
            accepted.dictionaryText ∨
          ∀ event ∈ ran.log, event.1.AsLong accepted)) →
      KeepsSpelling unicode call.session accepted ran.log ran.value) ∧
    ∀ request : ZenzEvaluationRequest F,
      checkedFixedRequest unicode request = some (fixedRequest unicode request) := by
  intro ran
  refine ⟨fun hcondition => ?_, checkedFixedRequest_eq⟩
  by_cases hempty : accepted.dictionaryText = []
  · constructor
    · intro event _
      obtain ⟨question, answer⟩ := event
      cases question with
      | draft nBest constraint => exact (constrainZenzPrefix_fixes haccepted constraint).bytes
      | evaluate request =>
        rw [Question.Led, hempty]
        exact List.nil_prefix
    · intro converted candidate _ _
      rw [hempty]
      exact List.nil_prefix
  · obtain ⟨hroom, hshort⟩ := hcondition.resolve_left hempty
    have hlong : ∀ event ∈ ran.log, event.1.AsLong accepted := by
      rcases hshort with hnone | hlong
      · exact run_asLong haccepted hnone evaluator
      · exact hlong
    have hkeeps : KeepsIfLong unicode call.session accepted ran.log ran.value :=
      ((convert_keeps haccepted hroom hempty).run (fun _ _ => True)
        (fun log state question _ =>
          ⟨conversionService_keeps haccepted log state question, trivial⟩)
        trivial).1
    exact hkeeps hlong

end

/-! ### A spelling that is kept, and one that is not -/

def spelledEntry (word : Text) (baseValue : ℚ) : DictionaryEntry :=
  { word, ruby := ['カ', 'ナ'], leftId := 0, rightId := 0, meaningId := 0, baseValue }

def spelledCandidate : Candidate where
  text := ['歯', '市']
  value := 0
  composingCount := .surface 1
  lastMeaningId := 0
  entries := [spelledEntry ['歯', '市'] (-1)]

/-- A word of the user dictionary for the same reading, with the first character alone. -/
def shorterEntry : DictionaryEntry :=
  { spelledEntry ['歯'] 0 with metadata := { userDictionary := true } }

def spelledLookups (entries : List DictionaryEntry) : Lookups .kana where
  matchesFromStart ruby maximumLength :=
    if ruby = ['カ', 'ナ'] ∧ 1 < maximumLength then [⟨2, entries⟩] else []
  matches_within := by
    intro ruby maximumLength found hfound
    split at hfound
    · next hasked =>
      obtain ⟨rfl, hlt⟩ := hasked
      obtain rfl := List.mem_singleton.mp hfound
      have hcount : (graphemes .kana ['カ', 'ナ']).length = 2 := by decide +kernel
      rw [hcount]
      exact ⟨Nat.two_pos, le_min hlt le_rfl⟩
    · exact absurd hfound List.not_mem_nil
  exactMatch _ := []
  connectionCost _ _ := 0
  learnedMatches _ _ := []
  learnedExact _ := []

def spelledSession : ConversionSession :=
  (Session.nameSession.acceptPredictionCandidate .kana Input.endingTables spelledCandidate).getD
    Session.nameSession

theorem spelledSession_accepted :
    spelledSession.acceptedPredictionNow = some spelledCandidate := by
  decide +kernel

def spelledCall (entries : List DictionaryEntry) : ConversionCall .kana Int where
  lookups := spelledLookups entries
  meaningCost _ _ := 0
  order := .identity
  tables := Input.endingTables
  additionalEntries := []
  session := spelledSession
  cache := {}
  options :=
    { version := .v3 {}
      requestRichCandidates := false
      inferenceLimit := 1
      personalization := none }

def spelledConstraint : PrefixConstraint := { bytes := utf8 ['歯', '市'], fixedPrefix := some ⟨6, 2⟩ }

theorem spelledCall_run {entries : List DictionaryEntry} {results : List RegisteredPath}
    (hasked : draftsOf ((spelledCall entries).plainRun (.new 256 128)).log =
      [(1, spelledConstraint)])
    (hresults : latticeResults (spelledLookups entries) {} 1 .identity Input.endingTables
      { constraint := some spelledConstraint } spelledSession.composing = some results)
    (hfalling : (results.map (makeCandidate (spelledLookups entries) (fun _ _ => 0) {})).Pairwise
      fun left right => right.value ≤ left.value)
    (hkept : (((results.map (makeCandidate (spelledLookups entries) (fun _ _ => 0) {})).filter
      fun candidate => candidate.text ≠ []).foldl insertUnique []).Pairwise
        fun left right => right.value ≤ left.value) :
    (spelledCall entries).run exactArithmetic characterModel 0 0 (.new 256 128) =
      (spelledCall entries).plainRun (.new 256 128) := by
  apply ConversionCall.run_eq_plainRun
  rw [hasked, List.forall_mem_singleton]
  have hconstrained : spelledSession.constrainZenzPrefix .kana spelledConstraint =
      spelledConstraint := by
    decide +kernel
  have hcontext : (spelledCall entries).session.context = {} :=
    show spelledSession.context = {} by decide +kernel
  apply ConversionCall.draft_of_falling hconstrained
  · rw [hcontext]
    exact hresults
  · rw [hcontext]
    exact hfalling
  · rw [hcontext]
    exact hkept

def spelledResults (entries : List DictionaryEntry) : List RegisteredPath :=
  (latticeResults (spelledLookups entries) {} 1 .identity Input.endingTables
    { constraint := some spelledConstraint } spelledSession.composing).getD []

instance (accepted : Candidate) (question : Question Int) :
    Decidable (question.AsLong accepted) :=
  match question with
  | .draft _ _ => isTrue trivial
  | .evaluate request =>
    inferInstanceAs
      (Decidable ((utf8 accepted.dictionaryText).length ≤ (utf8 request.candidate.text).length))

/-! ### A text that goes on behind the spelling -/

def furtherEntry : DictionaryEntry := { spelledEntry ['歯'] (-14) with ruby := ['サ'] }

def furtherLookups : Lookups .kana where
  matchesFromStart ruby maximumLength :=
    if ruby = ['カ', 'ナ', 'サ'] ∧ 1 < maximumLength then [⟨2, [spelledEntry ['歯', '市'] (-1)]⟩]
    else if ruby = ['サ'] ∧ 0 < maximumLength then [⟨1, [furtherEntry]⟩]
    else []
  matches_within := by
    intro ruby maximumLength found hfound
    have hcount : (graphemes .kana ['カ', 'ナ', 'サ']).length = 3 ∧
        (graphemes .kana ['サ']).length = 1 := by
      decide +kernel
    split at hfound
    · next hasked =>
      obtain ⟨rfl, hlt⟩ := hasked
      obtain rfl := List.mem_singleton.mp hfound
      rw [hcount.1]
      exact ⟨Nat.two_pos, le_min hlt (by decide)⟩
    · split at hfound
      · next hasked =>
        obtain ⟨rfl, hlt⟩ := hasked
        obtain rfl := List.mem_singleton.mp hfound
        rw [hcount.2]
        exact ⟨Nat.one_pos, le_min hlt le_rfl⟩
      · exact absurd hfound List.not_mem_nil
  exactMatch _ := []
  connectionCost _ _ := 0
  learnedMatches _ _ := []
  learnedExact _ := []

def furtherSession : ConversionSession :=
  spelledSession.insertStr .kana Input.endingTables ['さ'] .direct

def furtherCall : ConversionCall .kana Int :=
  { spelledCall [] with
    lookups := furtherLookups
    session := furtherSession
    options := { (spelledCall []).options with inferenceLimit := 2 } }

theorem furtherCall_noneBegins : NoneBegins furtherCall.lookups furtherCall.additionalEntries
    furtherCall.session.composing spelledCandidate.dictionaryText := by
  intro entries hentries
  have hall : (surfaceEntries furtherCall.lookups furtherCall.additionalEntries
      furtherCall.session.composing.surface.length
      (katakanaGraphemes .kana furtherCall.session.composing) 0).all fun entries =>
        entries.all fun found => decide (found.1.word <+: spelledCandidate.dictionaryText →
          found.1.word = spelledCandidate.dictionaryText) := by
    decide +kernel
  rw [hentries, Option.all_some, List.all_eq_true] at hall
  exact fun found hin => of_decide_eq_true (hall found hin)

/-- The spelling stays in front of both candidates that are reviewed. -/
theorem spelled_kept :
    let ran := furtherCall.run exactArithmetic characterModel 0 0 (.new 256 128)
    KeepsSpelling .kana furtherSession spelledCandidate ran.log ran.value := by
  intro ran
  have haccepted : furtherSession.acceptedPredictionNow = some spelledCandidate := by
    decide +kernel
  have hroom : HasRoom .kana spelledCandidate (conversionInput Input.endingTables furtherSession {}
      furtherCall.options) :=
    ⟨by decide +kernel, by decide +kernel, by decide +kernel⟩
  exact (convert_keeps_spelling exactArithmetic characterModel 0 0 (.new 256 128) furtherCall
    haccepted).1 (.inr ⟨hroom, .inl furtherCall_noneBegins⟩)

example : (furtherCall.plainRun (.new 256 128)).value.map (fun converted =>
    (converted.reviewed.toOption.bind id).map Session.Candidate.text) =
      some (some ['歯', '市', '歯']) := by
  decide +kernel

/-- With the shorter word of the user dictionary, which no constraint binds, this one is
reported. -/
theorem shorter_reported :
    let call := spelledCall [shorterEntry, spelledEntry ['歯', '市'] (-1)]
    let ran := call.run exactArithmetic characterModel 0 0 (.new 256 128)
    call.session.acceptedPredictionNow = some spelledCandidate ∧
      ¬KeepsSpelling .kana call.session spelledCandidate ran.log ran.value := by
  intro call ran
  have hresults : latticeResults (spelledLookups [shorterEntry, spelledEntry ['歯', '市'] (-1)]) {} 1
      .identity Input.endingTables { constraint := some spelledConstraint }
        spelledSession.composing =
        some (spelledResults [shorterEntry, spelledEntry ['歯', '市'] (-1)]) := by
    decide +kernel
  have hrun : ran = call.plainRun (.new 256 128) :=
    spelledCall_run (by decide +kernel) hresults (by decide +kernel) (by decide +kernel)
  have hreviewed : (call.plainRun (.new 256 128)).value.map (fun converted =>
      converted.reviewed.toOption.map (·.map Session.Candidate.text)) =
        some (some (some ['歯'])) := by
    decide +kernel
  rw [← hrun] at hreviewed
  refine ⟨spelledSession_accepted, fun hkeeps => ?_⟩
  obtain ⟨converted, candidate, hconverted, hresult, htext⟩ := exists_reviewed hreviewed
  have hstarts := hkeeps.reported converted candidate hconverted hresult
  rw [htext] at hstarts
  exact absurd hstarts (by decide)

end BeanKey.Zenz
