import BeanKey.Engine.Outcome

/-! The presentation of every reachable session: three lists and an index in step with the
composing text. -/
namespace BeanKey.Engine
open Session Input Protocol SessionState
variable {config : EngineConfig} {services : Services} {action : Option UserAction}

namespace SessionState

/-- The shown candidates, the remainders beside them, their annotations and the selected
index belong together; a session without an input mode holds no text. -/
structure InStep (config : EngineConfig) (session : SessionState) : Prop where
  fullComposing : session.conversion.fullComposing = none
  remainders : session.candidateRemainders = remaindersOf config session session.displayCandidates
  annotations : session.candidateAnnotations.length = session.displayCandidates.length
  additional : session.additionalCandidateCount ≤ session.displayCandidates.length
  selected : session.inputMode = .selecting → 0 < session.displayCandidates.length →
    session.selectedCandidate < session.displayCandidates.length
  idle : session.inputMode = .none ∨ session.inputMode = .unicode → session.composing.isEmpty = true

theorem Cleared.inStep {session : SessionState} (h : session.Cleared) : session.InStep config where
  fullComposing := h.fullComposing
  remainders := by rw [h.candidateRemainders, h.displayCandidates]; rfl
  annotations := by rw [h.candidateAnnotations, h.displayCandidates]; rfl
  additional := by rw [h.additionalCandidateCount]; exact Nat.zero_le _
  selected := by rw [h.displayCandidates]; exact fun _ hlen => absurd hlen (Nat.lt_irrefl 0)
  idle := h.idle

theorem remaindersOf_congr {before after : SessionState} (candidates : List Session.Candidate)
    (h : after.composing = before.composing) :
    remaindersOf config after candidates = remaindersOf config before candidates := by
  unfold remaindersOf ConversionSession.remainingAfterCandidate
  rw [show after.conversion.composing = before.conversion.composing from h]

theorem SameLists.remainders {before after : SessionState} (h : SameLists before after)
    (hremainders : before.candidateRemainders =
      remaindersOf config before before.displayCandidates) :
    after.candidateRemainders = remaindersOf config after after.displayCandidates := by
  rw [h.candidateRemainders, h.displayCandidates, hremainders]
  exact (remaindersOf_congr _ (congrArg ConversionSession.composing h.conversion)).symm

theorem revealAdditionalCandidate_inStep {before : SessionState} (h : before.InStep config)
    (hmode : before.inputMode = .selecting) :
    (revealAdditionalCandidate config before).InStep config := by
  have hlen : (revealAdditionalCandidate config before).displayCandidates.length =
      (revealAdditionalCandidate config before).candidateAnnotations.length := by
    simp [revealAdditionalCandidate, withRemainders, h.annotations]
  refine ⟨h.fullComposing, rfl, hlen.symm, ?_, ?_, ?_⟩
  · simp only [revealAdditionalCandidate, withRemainders, List.length_append, List.length_map,
      List.length_drop]
    omega
  · exact fun _ hpositive => hpositive
  · intro hidle
    have hselecting : (revealAdditionalCandidate config before).inputMode = .selecting := hmode
    rw [hselecting] at hidle
    rcases hidle with hnone | hunicode
    · cases hnone
    · cases hunicode

theorem SameLists.inStep {before after : SessionState} (hsame : SameLists before after)
    (h : before.InStep config)
    (hselected : after.inputMode = .selecting → 0 < after.displayCandidates.length →
      after.selectedCandidate < after.displayCandidates.length)
    (hidle : after.inputMode = .none ∨ after.inputMode = .unicode →
      after.composing.isEmpty = true) :
    after.InStep config where
  fullComposing := by rw [hsame.conversion]; exact h.fullComposing
  remainders := hsame.remainders h.remainders
  annotations := by rw [hsame.candidateAnnotations, hsame.displayCandidates]; exact h.annotations
  additional := by
    rw [hsame.additionalCandidateCount, hsame.displayCandidates]; exact h.additional
  selected := hselected
  idle := hidle

theorem Effect.inStep {before after : SessionState}
    (h : Effect config services action before after) (hbefore : before.InStep config) :
    after.InStep config := by
  cases h with
  | kept hsame hmode hselects =>
    have hcomposing : after.composing = before.composing :=
      congrArg ConversionSession.composing hsame.conversion
    refine hsame.inStep hbefore ?_ ?_
    · intro hselecting hlen
      cases hselects hselecting with
      | inr hindex => exact hindex hlen
      | inl hindex =>
        rw [hindex, hsame.displayCandidates]
        rw [hsame.displayCandidates] at hlen
        refine hbefore.selected ?_ hlen
        rw [hselecting] at hmode
        generalize hbeforeMode : before.inputMode = mode at hmode
        cases hmode
        rfl
    · intro hidle
      rw [hcomposing]
      refine hbefore.idle ?_
      generalize hbeforeMode : before.inputMode = mode at hmode
      generalize hafterMode : after.inputMode = mode' at hmode hidle
      cases hmode with
      | same => exact hidle
      | closePreview => simp at hidle
      | closeLive => simp at hidle
      | closeSelection => simp at hidle
      | unicode hfrom => exact hfrom
  | cleared hcleared => exact hcleared.inStep
  | @requested target middle _ _ _ hrequest hrequested =>
    have hanswered := hrequested.answered
    have hsame := hrequested.same
    have hkept : after.composing = target.composing :=
      (congrArg ConversionSession.composing hsame.conversion).trans hanswered.composing
    refine ⟨?_, hsame.remainders hanswered.remainders, ?_, ?_, ?_, ?_⟩
    · rw [hsame.conversion]
      exact hanswered.fullComposing
    · rw [hsame.candidateAnnotations, hsame.displayCandidates]
      exact hanswered.annotations
    · rw [hsame.additionalCandidateCount, hanswered.additionalCandidateCount]
      exact Nat.zero_le _
    · intro hselecting hlen
      cases hrequested.selects hselecting with
      | inl hzero => rw [hzero]; exact hlen
      | inr hmiddle =>
        rw [hmiddle.1]
        cases hanswered.selected with
        | inl htarget => rw [htarget, hmiddle.2]; exact hlen
        | inr hlt => rw [hsame.displayCandidates]; exact hlt
    · intro hidle
      have hstayed := hrequested.idle hidle
      rw [hkept, hstayed.2]
      exact hbefore.idle (hstayed.1 ▸ hidle)
  | revealed hmode hsame hselecting hzero =>
    refine hsame.inStep (revealAdditionalCandidate_inStep hbefore hmode) ?_ ?_
    · exact fun _ hlen => hzero ▸ hlen
    · intro hidle
      rw [hselecting] at hidle
      rcases hidle with hnone | hunicode
      · cases hnone
      · cases hunicode

end SessionState

/-! ### One message -/

theorem handleAction_outcome {session : SessionState} {event : KeyEvent}
    {result : StateResponse × SessionState} (hstep : session.InStep config)
    (h : handleAction config services session event = .ok result) :
    Outcome config services (some event) session result := by
  have hfull := hstep.fullComposing
  have hidle (hmode : session.inputMode = .none) := hstep.idle (.inl hmode)
  unfold handleAction at h
  cases haction : event.action <;> simp only [haction] at h
  case startUnicodeInput => exact enterUnicodeInput_outcome haction hfull hstep.remainders h
  case eisu => exact handleEisu_outcome haction hfull h
  case kana =>
    cases h
    exact ⟨.kept ⟨rfl, rfl, rfl, rfl, rfl, rfl, rfl, .inl rfl⟩ (.same _) (fun _ => .inl rfl),
      fun hne _ => GoesOn.fate .kept hne⟩
  case input => exact handleInput_outcome haction hidle hfull h
  case backspace => exact handleBackspace_outcome haction hfull h
  case escape => exact handleEscape_outcome haction hfull h
  case enter => exact handleEnter_outcome haction hfull h
  case space => exact handleSpace_outcome haction hidle hstep.selected hfull h
  case down => exact handleDown_outcome haction hfull h
  case up => exact handleUp_outcome hstep.selected h
  case left => exact handleArrow_outcome false haction hfull h
  case right => exact handleArrow_outcome true haction hfull h
  case tab => exact handleTab_outcome haction hfull h
  case halfWidthRoman =>
    exact handleRepresentation_outcome (by simp [representationKeys, haction]) hfull h
  case fullWidthRoman =>
    exact handleRepresentation_outcome (by simp [representationKeys, haction]) hfull h
  case halfWidthKatakana =>
    exact handleRepresentation_outcome (by simp [representationKeys, haction]) hfull h
  case katakana =>
    exact handleRepresentation_outcome (by simp [representationKeys, haction]) hfull h
  case hiragana =>
    exact handleRepresentation_outcome (by simp [representationKeys, haction]) hfull h
  case forget => exact handleForget_outcome hfull h
  all_goals exact outcome_respond_self (fun _ => rfl) h

theorem handleKey_outcome {session : SessionState} {event : KeyEvent}
    {result : StateResponse × SessionState} (hstep : session.InStep config)
    (h : handleKey config services session event = .ok result) :
    Outcome config services (some (normalizeInputEvent event config.inputBehavior)) session
      result := by
  have hcleared : ({ session with typoCorrections := [] } : SessionState).InStep config :=
    ⟨hstep.1, hstep.2, hstep.3, hstep.4, hstep.5, hstep.6⟩
  refine .frame session.lastRequestId session.surrounding [] ?_
  unfold handleKey at h
  dsimp only at h
  split at h
  · rename_i hdirect
    refine outcome_respond_self (fun hne => ?_) h
    unfold directInput at hdirect
    split at hdirect
    · rename_i hnone
      rw [hcleared.idle (.inl hnone.2.1)] at hne
      cases hne
    · cases hdirect
  · split at h
    · rename_i hunicode
      exact handleUnicodeInput_outcome (hstep.idle (.inr hunicode)) hstep.fullComposing h
    · exact handleAction_outcome hcleared h

def payloadAction : Payload → Option UserAction
  | .keyEvent event => some event.action
  | _ => none

theorem handleRequest_effect {session : SessionState} {request : Payload}
    {result : StateResponse × SessionState} (hstep : session.InStep config)
    (h : handleRequest config services session request = .ok result) :
    Effect config services (payloadAction request) session result.2 := by
  have hfull := hstep.fullComposing
  unfold handleRequest at h
  split at h
  · cases h
    exact .cleared (reset_cleared hfull)
  · rename_i event
    have hkey : Effect config services
        (some (normalizeInputEvent event config.inputBehavior).action) session result.2 :=
      (handleKey_outcome hstep h).1
    rwa [normalizeInputEvent_action] at hkey
  · have houtcome : Outcome config services none session result :=
      selectCandidate_outcome (fun _ hkey => nomatch hkey) hfull h
    exact houtcome.1
  · unfold selectTypoCorrection at h
    split at h
    · cases h
    · cases h
      exact .cleared (reset_cleared hfull)
  · have houtcome : Outcome config services none session result := forgetCandidate_outcome hfull h
    exact houtcome.1
  · have houtcome : Outcome config services none session result := resetLearning_outcome hfull h
    exact houtcome.1
  · cases h
    exact .cleared (reset_cleared hfull)
  · cases h

theorem updateSurrounding_eq_ok {session updated : SessionState} {request : Payload}
    (h : updateSurrounding session request = .ok updated) :
    ∃ surrounding, updated = { session with surrounding } := by
  unfold updateSurrounding at h
  split at h
  · split at h
    · exact ⟨session.surrounding, (Except.ok.inj h).symm⟩
    · rename_i surrounding _
      cases hcontext : surroundingContext (some surrounding) with
      | error message => rw [hcontext] at h; cases h
      | ok context =>
        rw [hcontext] at h
        exact ⟨context, (Except.ok.inj h).symm⟩
  · exact ⟨session.surrounding, (Except.ok.inj h).symm⟩

theorem answerRequest_effect {session left : SessionState} {request : Payload} {requestId : Nat}
    (hstep : session.InStep config)
    (h : (answerRequest config services { session with lastRequestId := requestId } request).2 =
      some left) :
    Effect config services (payloadAction request) session left := by
  unfold answerRequest at h
  split at h
  · cases h
    exact .cleared (reset_cleared hstep.fullComposing)
  · rename_i updated hupdated
    obtain ⟨surrounding, rfl⟩ := updateSurrounding_eq_ok hupdated
    split at h
    · cases h
      exact .cleared (reset_cleared hstep.fullComposing)
    · rename_i response after hrequest
      cases h
      have hframed :
          ({ session with lastRequestId := requestId, surrounding } : SessionState).InStep
          config := ⟨hstep.1, hstep.2, hstep.3, hstep.4, hstep.5, hstep.6⟩
      exact .frame requestId surrounding session.typoCorrections
        (handleRequest_effect hframed hrequest)

theorem pageCandidates_effect {session paged : SessionState} {page : PageCandidates}
    (hstep : session.InStep config) (h : pageCandidates session page = some paged) :
    Effect config services action session { paged with liveCandidate := none } := by
  unfold pageCandidates at h
  dsimp only at h
  split at h
  · cases h
  · split at h
    · cases h
      exact .kept ⟨rfl, rfl, rfl, rfl, rfl, rfl, rfl, .inr rfl⟩ (.same _) (fun _ => .inl rfl)
    · split at h
      · cases h
        refine .kept ⟨rfl, rfl, rfl, rfl, rfl, rfl, rfl, .inr rfl⟩ (.same _)
          (fun hselecting => .inr fun hlen => ?_)
        exact (Nat.sub_le _ _).trans_lt (hstep.selected hselecting hlen)
      · cases h
        refine .kept ⟨rfl, rfl, rfl, rfl, rfl, rfl, rfl, .inr rfl⟩ (.same _)
          (fun _ => .inr fun hlen => ?_)
        show min _ _ < session.displayCandidates.length
        omega
      · cases h

theorem handleSessionRequest_effect {session left : SessionState} {requestId : Nat}
    {request : Payload} (hstep : session.InStep config)
    (h : (handleSessionRequest config services session requestId request).2 = some left) :
    Effect config services (payloadAction request) session left := by
  have hnumbered : ({ session with lastRequestId := requestId } : SessionState).InStep config :=
    ⟨hstep.1, hstep.2, hstep.3, hstep.4, hstep.5, hstep.6⟩
  unfold handleSessionRequest at h
  split at h
  · cases h
    exact .kept (.refl session) (.same _) (fun _ => .inl rfl)
  · dsimp only at h
    split at h
    · split at h
      · cases h
      · cases h
    · split at h
      · cases h
        exact .cleared (reset_cleared hstep.fullComposing)
      · cases h
        exact .kept ⟨rfl, rfl, rfl, rfl, rfl, rfl, rfl, .inl rfl⟩ (.same _) (fun _ => .inl rfl)
    · split at h
      · cases h
        exact .kept ⟨rfl, rfl, rfl, rfl, rfl, rfl, rfl, .inl rfl⟩ (.same _) (fun _ => .inl rfl)
      · rename_i paged hpaged
        cases h
        exact .frame requestId session.surrounding session.typoCorrections
          (pageCandidates_effect hnumbered hpaged)
    · exact answerRequest_effect hstep h

theorem newSession_cleared (requestId : Nat) (inputStyle : Input.InputStyle)
    (surrounding : SurroundingContext) (language : Option KeyboardLanguage) :
    (newSession config requestId inputStyle surrounding language).Cleared :=
  ⟨rfl, rfl, rfl, rfl, rfl, rfl, rfl, InputMode.noConfusion, fun _ => rfl⟩

theorem startSession_eq_ok {previous : Option SessionState} {requestId : Nat}
    {start : StartSession} {session : SessionState}
    (h : startSession config services previous requestId start = .ok session) :
    (∀ before, previous = some before → before.lastRequestId < requestId) ∧
      ∃ inputStyle surrounding language,
        session = newSession config requestId inputStyle surrounding language := by
  unfold startSession at h
  split at h
  · cases h
  · rename_i hnew
    refine ⟨fun before hbefore => by subst hbefore; simpa using hnew, ?_⟩
    split at h
    · cases h
    · split at h
      · cases h
      · split at h
        · cases h
        · split at h
          · cases h
          · split at h
            · cases h
            · exact ⟨_, _, _, (Except.ok.inj h).symm⟩

theorem startSession_cleared {previous : Option SessionState} {requestId : Nat}
    {start : StartSession} {session : SessionState}
    (h : startSession config services previous requestId start = .ok session) :
    session.Cleared := by
  obtain ⟨-, inputStyle, surrounding, language, rfl⟩ := startSession_eq_ok h
  exact newSession_cleared _ _ _ _

/-- The session a message leaves is a fresh one, the one that was there, or what one of the
handlers makes of it. -/
theorem handleMessage_effect {previous : Option SessionState} {requestId : Nat}
    {payload : Option Payload} {left : SessionState}
    (hprevious : ∀ before, previous = some before → before.InStep config)
    (h : (handleMessage config services previous requestId payload).2 = some left) :
    left.Cleared ∨ ∃ before, previous = some before ∧
      Effect config services (payload.bind payloadAction) before left := by
  have hkept (h : previous = some left) : left.Cleared ∨ ∃ before, previous = some before ∧
      Effect config services (payload.bind payloadAction) before left :=
    .inr ⟨left, h, .kept (.refl left) (.same _) (fun _ => .inl rfl)⟩
  unfold handleMessage at h
  split at h
  · exact hkept h
  · split at h
    · exact hkept h
    · rename_i session hstart
      cases h
      exact .inl (startSession_cleared hstart)
  · split at h
    · exact hkept h
    · split at h
      · cases h
      · rename_i session
        exact .inr ⟨session, rfl, handleSessionRequest_effect (hprevious session rfl) h⟩

theorem handleMessage_inStep {previous : Option SessionState} {requestId : Nat}
    {payload : Option Payload} {left : SessionState}
    (hprevious : ∀ before, previous = some before → before.InStep config)
    (h : (handleMessage config services previous requestId payload).2 = some left) :
    left.InStep config := by
  cases handleMessage_effect hprevious h with
  | inl hcleared => exact hcleared.inStep
  | inr hbefore =>
    obtain ⟨before, hsome, heffect⟩ := hbefore
    exact heffect.inStep (hprevious before hsome)

theorem Reached.inStep {allowed : Services → Option SessionState → Option Payload → Prop}
    {sessions : Sessions} (h : Reached config allowed sessions) (sessionId : String)
    (session : SessionState) (hsession : sessions sessionId = some session) :
    session.InStep config :=
  h.induction (fun _ _ _ _ _ hprevious _ hleft => handleMessage_inStep hprevious hleft)
    sessionId session hsession

end BeanKey.Engine
