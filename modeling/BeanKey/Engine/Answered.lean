import BeanKey.Engine.Handle

/-! What a request for candidates leaves: the shown lists in step with the composing text,
which the request does not change. -/
namespace BeanKey.Engine
open Session Input Protocol
variable {config : EngineConfig}

namespace SessionState

abbrev remaining (config : EngineConfig) (session : SessionState) (candidate : Session.Candidate) :
    Text :=
  session.conversion.remainingAfterCandidate config.tables candidate

/-- The candidate the preview index stands for consumes the whole composing text. -/
def PreviewWhole (config : EngineConfig) (session : SessionState) : Prop :=
  ∀ index, session.previewCandidateIndex = some index →
    ∃ candidate, session.displayCandidates[index]? = some candidate ∧
      session.remaining config candidate = []

/-- A request converts the whole composing text, not a segment of it. -/
def ConvertsWhole (session : SessionState) : Prop :=
  session.segmentSurfaceCount = none ∨ session.composing.isAtEnd = true

structure Answered (config : EngineConfig) (before after : SessionState) : Prop where
  composing : after.composing = before.composing
  fullComposing : after.conversion.fullComposing = none
  inputMode : after.inputMode = before.inputMode
  segmentSurfaceCount : after.segmentSurfaceCount = before.segmentSurfaceCount
  additionalCandidateCount : after.additionalCandidateCount = 0
  remainders : after.candidateRemainders = remaindersOf config after after.displayCandidates
  annotations : after.candidateAnnotations.length = after.displayCandidates.length
  selected : after.selectedCandidate = before.selectedCandidate ∨
    after.selectedCandidate < after.displayCandidates.length
  preview : before.ConvertsWhole → after.PreviewWhole config

theorem positionOf_lt {candidates : List Session.Candidate} {candidate : Session.Candidate}
    {index : Nat} (h : positionOf candidates candidate = some index) : index <
    candidates.length := by
  obtain ⟨hlt, -⟩ := List.findIdx?_eq_some_iff_findIdx_eq.mp h
  exact hlt

/-- The candidate found consumes what the one looked for consumes. -/
theorem positionOf_composingCount {candidates : List Session.Candidate}
    {candidate : Session.Candidate} {index : Nat}
    (h : positionOf candidates candidate = some index) :
    ∃ shown, candidates[index]? = some shown ∧ shown.composingCount = candidate.composingCount := by
  have hlt := positionOf_lt h
  refine ⟨candidates[index], List.getElem?_eq_getElem hlt, ?_⟩
  have hfound := (List.findIdx?_eq_some_iff_getElem.mp h).2.1
  simpa using (of_decide_eq_true hfound).2

variable (config) in
theorem present_previewWhole (session : SessionState) (result : ConversionResult)
    (evaluated : Option Session.Candidate) :
    (session.present config result evaluated).PreviewWhole config := by
  intro index hindex
  obtain ⟨preview, hpreview, hposition⟩ := Option.bind_eq_some_iff.mp hindex
  have hwhole := (Option.filter_eq_some_iff.mp hpreview).2
  obtain ⟨shown, hshown, hcount⟩ := positionOf_composingCount hposition
  refine ⟨shown, hshown, ?_⟩
  have hnil : session.conversion.remainingAfterCandidate config.tables preview = [] := by
    simpa using hwhole
  rw [← hnil]
  show ((session.composing.completePrefix config.tables shown.composingCount).surfaceText) = _
  rw [hcount]
  rfl

variable (config) in
theorem present_selected (session : SessionState) (result : ConversionResult)
    (evaluated : Option Session.Candidate) :
    let after := session.present config result evaluated
    after.selectedCandidate = session.selectedCandidate ∨
      after.selectedCandidate < after.displayCandidates.length := by
  show ((liveCandidateOf config session result).bind
      (positionOf (displayCandidatesOf config session result))).getD session.selectedCandidate = _ ∨
        _
  cases hlive : (liveCandidateOf config session result).bind
      (positionOf (displayCandidatesOf config session result)) with
  | none => exact .inl rfl
  | some index =>
    obtain ⟨live, -, hposition⟩ := Option.bind_eq_some_iff.mp hlive
    refine .inr ?_
    show ((liveCandidateOf config session result).bind _).getD _ < _
    rw [hlive]
    exact positionOf_lt hposition

/-! ### The segment -/

@[simp] theorem retainPredictionPrefix_composing (conversion : ConversionSession) :
    conversion.retainPredictionPrefix.composing = conversion.composing := rfl

theorem endSegmentRequest_composing (conversion : ConversionSession) :
    conversion.endSegmentRequest.composing =
      conversion.fullComposing.getD conversion.composing := by
  cases h : conversion.fullComposing <;> simp [ConversionSession.endSegmentRequest, h]

theorem endSegmentRequest_fullComposing (conversion : ConversionSession) :
    conversion.endSegmentRequest.fullComposing = none := by
  cases h : conversion.fullComposing <;> simp [ConversionSession.endSegmentRequest, h]

/-- The end of a segment request brings back the text its start took. -/
theorem end_begin_composing (conversion : ConversionSession) (tables : InputTableRegistry)
    (candidates : List Session.Candidate) (hfull : conversion.fullComposing = none) :
    (ConversionSession.endSegmentRequest
      { conversion.beginSegmentRequest tables with candidates }).composing =
        conversion.composing := by
  rw [endSegmentRequest_composing, ConversionSession.beginSegmentRequest, hfull]
  by_cases hend : conversion.composing.isAtEnd = true
  · rw [if_pos (by simp [hend])]
    exact congrArg (Option.getD · _) hfull
  · rw [if_neg (by simpa using hend)]
    rfl

variable (config) in
theorem prepared_of_segment_none {session : SessionState}
    (h : session.segmentSurfaceCount = none) :
    (session.prepared config).conversion = session.conversion := by
  cases hback : session.lastWasBackspace <;> simp [prepared, hback, h]

variable (config) in
theorem prepared_of_segment_some {session : SessionState} {target : Nat}
    (h : session.segmentSurfaceCount = some target) :
    (session.prepared config).conversion =
      session.conversion.beginSegmentRequest config.tables := by
  cases hback : session.lastWasBackspace <;> simp [prepared, hback, h]

@[simp] theorem prepared_segmentSurfaceCount (session : SessionState) :
    (session.prepared config).segmentSurfaceCount = session.segmentSurfaceCount := by
  cases hback : session.lastWasBackspace <;> cases hsegment : session.segmentSurfaceCount <;>
    simp [prepared, hback, hsegment]

@[simp] theorem prepared_inputMode (session : SessionState) :
    (session.prepared config).inputMode = session.inputMode := by
  cases hback : session.lastWasBackspace <;> cases hsegment : session.segmentSurfaceCount <;>
    simp [prepared, hback, hsegment]

@[simp] theorem prepared_selectedCandidate (session : SessionState) :
    (session.prepared config).selectedCandidate = session.selectedCandidate := by
  cases hback : session.lastWasBackspace <;> cases hsegment : session.segmentSurfaceCount <;>
    simp [prepared, hback, hsegment]

variable (config) in
/-- A request for the whole text is made on that text. -/
theorem prepared_composing {session : SessionState}
    (h : session.ConvertsWhole) : (session.prepared config).composing = session.composing := by
  cases hsegment : session.segmentSurfaceCount with
  | none => rw [composing, prepared_of_segment_none config hsegment]
  | some target =>
    have hend : session.composing.isAtEnd = true := by
      cases h with
      | inl hnone => rw [hnone] at hsegment; cases hsegment
      | inr hend => exact hend
    rw [composing, prepared_of_segment_some config hsegment, ConversionSession.beginSegmentRequest,
      if_pos (by simp [hend])]

theorem finished_answered {session : SessionState} (hfull : session.conversion.fullComposing = none)
    (result : ConversionResult) (evaluated : Option Session.Candidate) :
    Answered config session
      (((session.prepared config).present config result evaluated).finished config) := by
  have hselected := present_selected config (session.prepared config) result evaluated
  have hpreview := present_previewWhole config (session.prepared config) result evaluated
  simp only [prepared_selectedCandidate] at hselected
  cases hsegment : session.segmentSurfaceCount with
  | none =>
    have hconversion := prepared_of_segment_none config hsegment
    have hfinished : ((session.prepared config).present config result evaluated).finished config =
        (session.prepared config).present config result evaluated := by
      have hnone : ((session.prepared config).present config result evaluated).segmentSurfaceCount =
          none := (prepared_segmentSurfaceCount session).trans hsegment
      rw [finished, if_neg (by rw [hnone]; exact Bool.false_ne_true)]
    rw [hfinished]
    refine ⟨?_, ?_, prepared_inputMode session, prepared_segmentSurfaceCount session, rfl, rfl,
      List.length_map _, hselected, fun _ => hpreview⟩
    · show (session.prepared config).conversion.composing = _
      rw [hconversion]
    · show (session.prepared config).conversion.fullComposing = _
      rw [hconversion, hfull]
  | some target =>
    have hconversion := prepared_of_segment_some config hsegment
    have hfinished : ((session.prepared config).present config result evaluated).finished config =
        SessionState.withRemainders config
          { (session.prepared config).present config result evaluated with
            conversion := ConversionSession.endSegmentRequest
              { session.conversion.beginSegmentRequest config.tables with
                candidates := result.mainResults } } := by
      have hsome : ((session.prepared config).present config result evaluated).segmentSurfaceCount =
          some target := (prepared_segmentSurfaceCount session).trans hsegment
      rw [finished, if_pos (by rw [hsome]; rfl), ← hconversion]
      rfl
    have hcomposing := end_begin_composing session.conversion config.tables result.mainResults hfull
    rw [hfinished]
    refine ⟨hcomposing, endSegmentRequest_fullComposing _, prepared_inputMode session,
      prepared_segmentSurfaceCount session, rfl, rfl, List.length_map _, hselected, ?_⟩
    -- Nothing was cut off: the remainders are those the request saw.
    intro hwhole index hindex
    obtain ⟨candidate, hcandidate, hremaining⟩ := hpreview index hindex
    refine ⟨candidate, hcandidate, ?_⟩
    rw [← hremaining]
    show (ComposingText.completePrefix _ (ConversionSession.endSegmentRequest _).composing
      _).surfaceText = _
    rw [hcomposing]
    show (ComposingText.completePrefix config.tables session.composing _).surfaceText = _
    rw [← prepared_composing config hwhole]
    rfl

theorem requestCandidates_eq_ok {answers : Answers} {session after : SessionState} {rich : Bool}
    {leftContext : Option Text}
    (h : requestCandidatesWithContext config answers session rich leftContext = .ok after) :
    ∃ result evaluated,
      answers.convert ⟨session.prepared config, rich, leftContext⟩ = .ok (result, evaluated) ∧
      after = ((session.prepared config).present config result evaluated).finished config := by
  unfold requestCandidatesWithContext requestCandidatesForActiveTarget at h
  cases hvalid : answers.validateLearning with
  | error error => simp [hvalid, Except.map] at h
  | ok _ =>
    cases hconvert : answers.convert ⟨session.prepared config, rich, leftContext⟩ with
    | error failure => simp [hvalid, hconvert, Except.map] at h
    | ok answer =>
      simp only [hvalid, hconvert, Except.map, Except.ok.injEq] at h
      exact ⟨answer.1, answer.2, rfl, h.symm⟩

theorem requestCandidates_answered {answers : Answers} {session after : SessionState} {rich : Bool}
    {leftContext : Option Text}
    (h : requestCandidatesWithContext config answers session rich leftContext = .ok after)
    (hfull : session.conversion.fullComposing = none) :
    Answered config session after := by
  obtain ⟨result, evaluated, -, rfl⟩ := requestCandidates_eq_ok h
  exact finished_answered hfull result evaluated

end SessionState

end BeanKey.Engine
