import BeanKey.Engine.Asked
import BeanKey.Engine.Marked

/-! A key event is answered with a state unless it selects a candidate that is not there. -/
namespace BeanKey.Engine
open Session Input Protocol SessionState

/-- The index of the candidate a key selects, while candidates are selected. -/
def selectedIndex (config : EngineConfig) (session : SessionState)
    (event : KeyEvent) : Option Nat :=
  if session.inputMode = .selecting then
    match event.action with
    | .enter | .eisu | .forget | .startUnicodeInput => some session.selectedCandidate
    | .right => if event.shift then none else some session.selectedCandidate
    | .input =>
      match selectionNumber (normalizeInputEvent event config.inputBehavior).text with
      | some (number + 1) => some (pageIndex session (number + 1))
      | _ => none
    | _ => none
  else none

def SelectsShown (config : EngineConfig) (session : SessionState) (event : KeyEvent) : Prop :=
  ∀ index, selectedIndex config session event = some index →
    index < session.displayCandidates.length

/-- The offsets of the surrounding text lie in it. -/
def Protocol.KeyEvent.WellFormed (event : KeyEvent) : Prop :=
  ∀ surrounding, event.surroundingText = some surrounding → surrounding.available = true →
    surrounding.cursor ≤ surrounding.text.length ∧ surrounding.anchor ≤ surrounding.text.length

/-- The result comes from the candidates asked for: it fails where they do not come, and is an
answer where they come or where none are asked for. -/
def Asks (config : EngineConfig) (services : Services) : Option ComposingText → KeyResult → Prop
  | none, result => ∃ answer, result = .ok answer
  | some text, result => ∃ target rich leftContext, requestedText config target = text ∧
      match requestCandidatesWithContext config services.candidates target rich leftContext with
      | .error failure => result = .error failure
      | .ok _ => ∃ answer, result = .ok answer

/-- A handler that asks for candidates fails with the request or goes on with its session. -/
theorem asks_requested {config : EngineConfig} {services : Services} (target : SessionState)
    (rich : Bool) (leftContext : Option Text) {next : SessionState → KeyResult}
    (hnext : ∀ after, ∃ answer, next after = .ok answer) :
    Asks config services (some (requestedText config target))
      (match requestCandidatesWithContext config services.candidates target rich leftContext with
      | .error failure => .error failure
      | .ok after => next after) := by
  refine ⟨target, rich, leftContext, rfl, ?_⟩
  cases requestCandidatesWithContext config services.candidates target rich leftContext with
  | error failure => rfl
  | ok after => exact hnext after

theorem Asks.answered {config : EngineConfig} {services : Services} {asked : Option ComposingText}
    {result : KeyResult} (h : Asks config services asked result)
    (hservices : services.SucceedInside config)
    (hinside : ∀ text, asked = some text → ConvertsInside config text) :
    ∃ answer, result = .ok answer := by
  cases asked with
  | none => exact h
  | some text =>
    obtain ⟨target, rich, leftContext, rfl, hresult⟩ := h
    obtain ⟨left, hleft⟩ := hservices.candidates.requestCandidates (hinside _ rfl) rich leftContext
    rwa [hleft] at hresult

/-! ### The handlers -/

section
variable (config : EngineConfig) {services : Services}
  (hservices : services.SucceedInside config)
include hservices

theorem selectAndStageLearning_ok (session : SessionState) (candidate : Session.Candidate) :
    ∃ selected, selectAndStageLearning config services session candidate = .ok selected := by
  unfold selectAndStageLearning
  dsimp only
  split
  · rw [hservices.learn candidate]
    exact ⟨_, rfl⟩
  · exact ⟨_, rfl⟩

theorem learnCurrentMarkedCandidate_ok (session : SessionState) (text : Text) :
    ∃ learned, learnCurrentMarkedCandidate config services session text = .ok learned := by
  unfold learnCurrentMarkedCandidate
  split
  · exact ⟨_, rfl⟩
  · rename_i candidate _
    obtain ⟨selected, hselected⟩ := selectAndStageLearning_ok config hservices session candidate
    rw [hselected]
    exact ⟨_, rfl⟩

theorem commitCandidate_asks (session : SessionState) (candidate : Session.Candidate)
    (mode : InputMode) :
    Asks config services (remainderAsked config session candidate)
      (commitCandidate config services session candidate mode) := by
  obtain ⟨selected, hselect⟩ := selectAndStageLearning_ok config hservices session candidate
  have hselected := selectAndStageLearning_eq_ok hselect
  subst hselected
  unfold commitCandidate remainderAsked
  rw [hselect]
  dsimp only
  generalize hchosen : ({ session with
    conversion := session.conversion.selectCandidateValue config.tables candidate } :
      SessionState) = chosen
  have hleft : (session.conversion.selectCandidateValue config.tables candidate).composing =
      chosen.composing := by rw [← hchosen]
  have hcomposing : (chosen.afterSelection mode).composing = chosen.composing := by
    unfold afterSelection
    dsimp only
    split <;> rfl
  rw [hleft, hcomposing]
  cases hempty : chosen.composing.isEmpty with
  | true => exact ⟨_, rfl⟩
  | false =>
    have hrequested : requestedText config (chosen.afterSelection mode) = chosen.composing := by
      rw [requestedText, hcomposing, afterSelection_of_not_isEmpty hempty]
      rfl
    rw [← hrequested]
    simp only [Bool.false_eq_true, if_false]
    exact asks_requested (chosen.afterSelection mode) true
      (some (session.surrounding.left.getD [] ++ candidate.text)) fun _ => ⟨_, rfl⟩

theorem selectCandidateWithRemainderMode_asks (session : SessionState) {index : Nat}
    (hindex : index < session.displayCandidates.length) (mode : InputMode) :
    Asks config services (selectionAsked config session index)
      (selectCandidateWithRemainderMode config services session index mode) := by
  unfold selectCandidateWithRemainderMode selectionAsked
  rw [List.getElem?_eq_getElem hindex]
  exact commitCandidate_asks config hservices { session with typoCorrections := [] } _ mode

omit hservices in
theorem composeEvent_asks (session : SessionState) (hsegment : session.segmentSurfaceCount = none)
    (event : KeyEvent) (commit : Text) :
    Asks config services (some (insertEvent config session event).composing)
      (composeEvent config services session event commit) := by
  have hrequested : requestedText config { insertEvent config session event with
      inputMode := .composing } = (insertEvent config session event).composing := by
    unfold requestedText
    rw [show ({ insertEvent config session event with inputMode := .composing } :
      SessionState).segmentSurfaceCount = none from hsegment]
    rfl
  rw [← hrequested]
  unfold composeEvent requestCandidates
  exact asks_requested _ false none fun _ => ⟨_, rfl⟩

omit hservices in
theorem handleText_asks (session : SessionState) (event : KeyEvent) :
    Asks config services (textAsked config session event)
      (handleText config services session event) := by
  unfold handleText textAsked
  split
  · dsimp only
    by_cases hcommit : committedByTyping session = []
    · rw [if_pos hcommit, if_pos hcommit]
      exact composeEvent_asks config { session.clearPresentation with
        segmentSurfaceCount := none, lastWasBackspace := false } rfl event _
    · rw [if_neg hcommit, if_neg hcommit]
      exact composeEvent_asks config { session.reset with
        segmentSurfaceCount := none, lastWasBackspace := false } rfl event _
  · exact ⟨_, rfl⟩

theorem handleInput_asks (session : SessionState) (event : KeyEvent)
    (hselected : session.inputMode = .selecting → ∀ number,
      selectionNumber event.text = some (number + 1) →
        pageIndex session (number + 1) < session.displayCandidates.length) :
    Asks config services (inputAsked config session event)
      (handleInput config services session event) := by
  unfold handleInput inputAsked
  split
  · exact ⟨_, rfl⟩
  · split
    · rename_i hmode
      cases hnumber : selectionNumber event.text with
      | none => exact handleText_asks config session event
      | some number =>
        cases number with
        | zero => exact composeEvent_asks config session.reset rfl event _
        | succ digit =>
          exact selectCandidateWithRemainderMode_asks config hservices session
            (hselected hmode digit hnumber) .previewing
    · exact handleText_asks config session event

theorem requestTypoCorrections_ok (henabled : config.lmTypoEnabled = true) (session : SessionState)
    (composing : ComposingText) :
    ∃ candidates, requestTypoCorrections config services session composing = .ok candidates := by
  unfold requestTypoCorrections
  rw [if_neg (by simp [henabled]), if_neg (by simp [config.ngram_loaded henabled])]
  cases hanswer : services.typoCorrections session composing with
  | ok candidates => exact ⟨candidates, rfl⟩
  | error failure =>
    cases failure with
    | contextCapacityExceeded => exact ⟨[], rfl⟩
    | other message => exact absurd hanswer (hservices.typoCorrections session composing message)

omit hservices in
theorem convertedReading_ok {answers : Answers} (h : answers.SucceedInside config)
    (session : SessionState) (reading : Text) :
    ∃ display, convertedReading config answers session reading = .ok display := by
  have htyped (preview : SessionState) (hpreview : requestedText config preview =
      ComposingText.new.insertStr config.unicode config.tables reading .direct) :
      ∃ display, (requestCandidates config answers preview).map (fun preview =>
        preview.conversion.candidates.head?.elim reading Session.Candidate.text) = .ok display := by
    have hanswered : ∃ after, requestCandidatesWithContext config answers preview false none =
        .ok after :=
      h.requestCandidates (hpreview ▸ convertsInside_typed config reading) false none
    obtain ⟨after, hafter⟩ := hanswered
    unfold requestCandidates
    rw [hafter]
    exact ⟨_, rfl⟩
  exact htyped _ rfl

theorem updateBackspaceCorrection_ok (henabled : config.lmTypoEnabled = true)
    (session : SessionState) (previous : ComposingText) :
    ∃ updated, updateBackspaceCorrection config services session previous = .ok updated := by
  obtain ⟨candidates, hcandidates⟩ :=
    requestTypoCorrections_ok config hservices henabled session previous
  unfold updateBackspaceCorrection
  rw [hcandidates]
  simp only [bind, Except.bind]
  split
  · exact ⟨_, rfl⟩
  · rename_i reading _
    obtain ⟨display, hdisplay⟩ := convertedReading_ok config hservices.display session reading
    obtain ⟨previousDisplay, hprevious⟩ :=
      convertedReading_ok config hservices.previousDisplay session previous.surfaceText
    rw [hdisplay, hprevious]
    exact ⟨_, rfl⟩

theorem handleBackspace_asks (session : SessionState) :
    Asks config services (backspaceAsked config session)
      (handleBackspace config services session) := by
  unfold handleBackspace backspaceAsked
  split
  · exact ⟨_, rfl⟩
  · dsimp only
    split
    · exact ⟨_, rfl⟩
    · unfold requestCandidates
      refine asks_requested
        (clearPresentation { (deleteLast config session).1 with inputMode := .composing })
          false none ?_
      intro after
      split
      · rename_i failure hfailure
        split at hfailure
        · rename_i hcorrects
          obtain ⟨updated, hupdated⟩ := updateBackspaceCorrection_ok config hservices
            (Bool.and_eq_true _ _ ▸ hcorrects).1 { after with liveCandidate := none }
              (deleteLast config session).2
          rw [hupdated] at hfailure
          cases hfailure
        · cases hfailure
      · exact ⟨_, rfl⟩

omit hservices in
theorem openSelection_asks (target : SessionState) :
    Asks config services (some (requestedText config target))
      (openSelection config services target) := by
  unfold openSelection requestRichCandidates
  exact asks_requested target true none fun _ => ⟨_, rfl⟩

omit hservices in
theorem handleSpace_asks (session : SessionState) (event : KeyEvent) :
    Asks config services (spaceAsked config session)
      (handleSpace config services session event) := by
  unfold handleSpace spaceAsked
  cases session.inputMode with
  | none | unicode => exact ⟨_, rfl⟩
  | composing =>
    dsimp only
    split
    · exact ⟨_, rfl⟩
    · split
      · exact openSelection_asks config { session.separated config with inputMode := .selecting }
      · unfold requestCandidates
        exact asks_requested { session.separated config with inputMode := .previewing }
          false none fun _ => ⟨_, rfl⟩
  | previewing => exact openSelection_asks config session
  | selecting =>
    dsimp only
    split
    · exact ⟨_, rfl⟩
    · split
      · exact ⟨_, rfl⟩
      · exact ⟨_, rfl⟩

omit hservices in
theorem handleDown_asks (session : SessionState) :
    Asks config services (downAsked config session) (handleDown config services session) := by
  unfold handleDown downAsked
  cases session.inputMode with
  | none | unicode | selecting => exact ⟨_, rfl⟩
  | composing | previewing => exact openSelection_asks config _

omit hservices in
theorem moveSegment_asks (session : SessionState) (right : Bool) :
    Asks config services (some (requestedText config (session.segmented config right)))
      (moveSegment config services session right) := by
  unfold moveSegment requestCandidates
  exact asks_requested (session.segmented config right) false none fun _ => ⟨_, rfl⟩

omit hservices in
theorem handleTab_asks (session : SessionState) :
    Asks config services (tabAsked config session) (handleTab config services session) := by
  unfold handleTab tabAsked
  by_cases hnone : session.inputMode = .none
  · rw [if_pos hnone, if_neg (by rw [hnone]; exact InputMode.noConfusion)]
    exact ⟨_, rfl⟩
  · rw [if_neg hnone]
    cases (if session.inputMode = .composing then session.prediction else none) with
    | none => exact ⟨_, rfl⟩
    | some prediction =>
      dsimp only [Option.bind_some]
      cases acceptPrediction config session prediction with
      | none => exact ⟨_, rfl⟩
      | some accepted =>
        unfold requestCandidates
        exact asks_requested accepted false none fun _ => ⟨_, rfl⟩

omit hservices in
theorem handleTab_composing (session : SessionState) {accepted : SessionState}
    {prediction : InputPrediction} {result : StateResponse × SessionState}
    (hmode : session.inputMode = .composing)
    (hprediction : session.prediction = some prediction)
    (haccept : acceptPrediction config session prediction = some accepted)
    (hfull : session.conversion.fullComposing = none)
    (h : handleTab config services session = .ok result) :
    result.2.composing = accepted.composing := by
  unfold handleTab at h
  rw [hmode, if_neg InputMode.noConfusion, if_pos rfl, hprediction] at h
  simp only [haccept] at h
  split at h
  · cases h
  · rename_i after hrequest
    cases h
    exact (requestCandidates_answered hrequest
      ((acceptPrediction_kept haccept).1.trans hfull)).composing

omit hservices in
/-- An edit of the end always applies. -/
theorem acceptPrediction_suffix (session : SessionState) {prediction : InputPrediction}
    (hcandidate : prediction.candidate = none) :
    ∃ accepted, acceptPrediction config session prediction = some accepted := by
  unfold acceptPrediction
  rw [hcandidate]
  dsimp only
  split
  · exact ⟨_, rfl⟩
  · exact ⟨_, rfl⟩

theorem handleRepresentation_asks (session : SessionState) (index : Fin 5) :
    Asks config services (representationAsked config session index)
      (handleRepresentation config services session index) := by
  unfold handleRepresentation representationAsked
  by_cases hnone : session.inputMode = .none
  · rw [if_pos hnone, if_pos hnone]
    exact ⟨_, rfl⟩
  · rw [if_neg hnone, if_neg hnone]
    dsimp only
    generalize session.conversion.desktopAdditionalCandidates config.tables _ = transformations
    cases transformations[index]? with
    | none => exact ⟨_, rfl⟩
    | some transformed =>
        exact commitCandidate_asks config hservices session transformed.1 .selecting

theorem enterUnicodeInput_ok (session : SessionState)
    (hselected : session.inputMode = .selecting →
      session.selectedCandidate < session.displayCandidates.length) :
    ∃ result, enterUnicodeInput config services session = .ok result := by
  unfold enterUnicodeInput
  dsimp only
  cases hmode : session.inputMode with
  | none | unicode => exact ⟨_, rfl⟩
  | composing | previewing =>
    obtain ⟨learned, hlearned⟩ :=
      learnCurrentMarkedCandidate_ok config hservices session session.currentMarkedText
    simp only [hlearned]
    exact ⟨_, rfl⟩
  | selecting =>
    have hlt := hselected hmode
    simp only [List.getElem?_eq_getElem hlt]
    obtain ⟨selected, hselect⟩ := selectAndStageLearning_ok config hservices session
      session.displayCandidates[session.selectedCandidate]
    rw [hselect]
    exact ⟨_, rfl⟩

/-- Eisu changes the answer of a selection, not whether there is one. -/
theorem handleEisu_asks (session : SessionState)
    (hselected : session.inputMode = .selecting →
      session.selectedCandidate < session.displayCandidates.length) :
    Asks config services (selectedAsked config session) (handleEisu config services session) := by
  unfold handleEisu selectedAsked
  split
  · rename_i hmode
    have hasks := selectCandidateWithRemainderMode_asks config hservices session (hselected hmode)
      .previewing
    unfold selectCandidate
    cases hresult : selectCandidateWithRemainderMode config services session
        session.selectedCandidate .previewing with
    | error failure => rwa [hresult] at hasks
    | ok answer =>
      rw [hresult] at hasks
      cases hasked : selectionAsked config session session.selectedCandidate with
      | none => exact ⟨_, rfl⟩
      | some text =>
        rw [hasked] at hasks
        obtain ⟨target, rich, leftContext, htext, hrequest⟩ := hasks
        refine ⟨target, rich, leftContext, htext, ?_⟩
        split at hrequest
        · cases hrequest
        · exact ⟨_, rfl⟩
  · exact ⟨_, rfl⟩

theorem handleEnter_asks (session : SessionState)
    (hselected : session.inputMode = .selecting →
      session.selectedCandidate < session.displayCandidates.length) :
    Asks config services (selectedAsked config session) (handleEnter config services session) := by
  unfold handleEnter selectedAsked
  obtain ⟨learned, hlearned⟩ :=
    learnCurrentMarkedCandidate_ok config hservices session session.currentMarkedText
  cases hmode : session.inputMode with
  | none => exact ⟨_, rfl⟩
  | selecting =>
    rw [if_pos rfl]
    exact selectCandidateWithRemainderMode_asks config hservices session (hselected hmode)
      .previewing
  | composing | previewing | unicode =>
    simp only [hlearned]
    exact ⟨_, rfl⟩

theorem handleForget_asks (session : SessionState)
    (hselected : session.inputMode = .selecting →
      session.selectedCandidate < session.displayCandidates.length) :
    Asks config services (forgetAsked config session) (handleForget config services session) := by
  unfold handleForget forgetAsked
  split
  · rename_i hmode
    unfold forgetCandidate requestCandidates
    rw [List.getElem?_eq_getElem (hselected hmode)]
    simp only [hservices.forgetLearning]
    exact asks_requested
      { session with typoCorrections := [], selectedCandidate := 0, liveCandidate := none }
        false none fun _ => ⟨_, rfl⟩
  · exact ⟨_, rfl⟩

theorem handleArrow_asks (session : SessionState) (event : KeyEvent) (right : Bool)
    (hselected : session.inputMode = .selecting → right = true → event.shift = false →
      session.selectedCandidate < session.displayCandidates.length) :
    Asks config services (arrowAsked config session event right)
      (handleArrow config services session event right) := by
  unfold handleArrow arrowAsked selectedAsked
  split
  · exact ⟨_, rfl⟩
  · split
    · exact moveSegment_asks config session right
    · rename_i hshift
      by_cases hright : right = true
      · by_cases hmode : session.inputMode = .selecting
        · simp only [hright, hmode, and_self, if_true]
          exact selectCandidateWithRemainderMode_asks config hservices session
            (hselected hmode hright (Bool.eq_false_iff.mpr hshift)) .selecting
        · simp only [hmode, and_false, if_false, ite_self]
          exact ⟨_, rfl⟩
      · simp only [hright]
        exact ⟨_, rfl⟩

omit hservices in
theorem handleUnicodeInput_ok (session : SessionState) (event : KeyEvent) :
    ∃ result, handleUnicodeInput session event = .ok result := by
  unfold handleUnicodeInput
  split
  · exact ⟨_, rfl⟩
  · split
    · exact ⟨_, rfl⟩
    · exact ⟨_, rfl⟩
  · exact ⟨_, rfl⟩
  · exact ⟨_, rfl⟩
  · exact ⟨_, rfl⟩
  · exact ⟨_, rfl⟩

theorem handleAction_asks (session : SessionState) (event : KeyEvent)
    (hselected : session.inputMode = .selecting →
      event.action ∈ [.enter, .eisu, .forget, .startUnicodeInput] ∨
        event.action = .right ∧ event.shift = false →
      session.selectedCandidate < session.displayCandidates.length)
    (hdigit : session.inputMode = .selecting → event.action = .input → ∀ number,
      selectionNumber event.text = some (number + 1) →
        pageIndex session (number + 1) < session.displayCandidates.length) :
    Asks config services (actionAsked config session event)
      (handleAction config services session event) := by
  unfold handleAction actionAsked
  cases haction : event.action <;> dsimp only
  case startUnicodeInput =>
    exact enterUnicodeInput_ok config hservices session fun hmode =>
      hselected hmode (.inl (by simp [haction]))
  case eisu =>
    exact handleEisu_asks config hservices session fun hmode =>
      hselected hmode (.inl (by simp [haction]))
  case enter =>
    exact handleEnter_asks config hservices session fun hmode =>
      hselected hmode (.inl (by simp [haction]))
  case forget =>
    exact handleForget_asks config hservices session fun hmode =>
      hselected hmode (.inl (by simp [haction]))
  case right =>
    exact handleArrow_asks config hservices session event true fun hmode _ hshift =>
      hselected hmode (.inr ⟨haction, hshift⟩)
  case left =>
    exact handleArrow_asks config hservices session event false fun _ hright => nomatch hright
  case input =>
    exact handleInput_asks config hservices session event fun hmode => hdigit hmode haction
  case backspace => exact handleBackspace_asks config hservices session
  case escape =>
    unfold handleEscape
    split <;> exact ⟨_, rfl⟩
  case space => exact handleSpace_asks config session event
  case down => exact handleDown_asks config session
  case up =>
    unfold handleUp
    split
    · split <;> exact ⟨_, rfl⟩
    · exact ⟨_, rfl⟩
  case tab => exact handleTab_asks config session
  case halfWidthRoman => exact handleRepresentation_asks config hservices session 0
  case fullWidthRoman => exact handleRepresentation_asks config hservices session 1
  case halfWidthKatakana => exact handleRepresentation_asks config hservices session 2
  case katakana => exact handleRepresentation_asks config hservices session 3
  case hiragana => exact handleRepresentation_asks config hservices session 4
  all_goals exact ⟨_, rfl⟩

theorem handleKey_asks (session : SessionState) (event : KeyEvent)
    (hselects : SelectsShown config session event) :
    Asks config services (keyAsked config session event)
      (handleKey config services session event) := by
  rw [← keyAsked_frame config session event session.lastRequestId session.surrounding []]
  generalize hread : ({ session with typoCorrections := [] } : SessionState) = read
  unfold handleKey keyAsked
  rw [show ({ session with
      lastRequestId := session.lastRequestId, surrounding := session.surrounding,
      typoCorrections := [] } : SessionState) = read from hread]
  dsimp only
  cases directInput config read event with
  | some text => exact ⟨_, rfl⟩
  | none =>
    subst hread
    dsimp only
    split
    · exact handleUnicodeInput_ok _ _
    · have haction : (normalizeInputEvent event config.inputBehavior).action = event.action :=
        normalizeInputEvent_action event config.inputBehavior
      refine handleAction_asks config hservices _ _ ?_ ?_
      · intro hmode hkey
        refine hselects session.selectedCandidate ?_
        have hmode : session.inputMode = .selecting := hmode
        cases hkey with
        | inl hmem =>
          rw [haction] at hmem
          simp only [List.mem_cons, List.not_mem_nil, or_false] at hmem
          rcases hmem with henter | heisu | hforget | hunicode
          · simp [selectedIndex, hmode, henter]
          · simp [selectedIndex, hmode, heisu]
          · simp [selectedIndex, hmode, hforget]
          · simp [selectedIndex, hmode, hunicode]
        | inr hright =>
          have hevent : event.action = .right := haction.symm.trans hright.1
          rw [normalizeInputEvent_of_ne _ (by rw [hevent]; exact UserAction.noConfusion)] at hright
          simp [selectedIndex, hmode, hright.1, hright.2]
      · intro hmode hinput number hnumber
        refine hselects (pageIndex session (number + 1)) ?_
        rw [haction] at hinput
        simp only [selectedIndex, if_pos (show session.inputMode = .selecting from hmode), hinput,
          hnumber]

end

theorem handleKey_tab {config : EngineConfig} {services : Services} {session : SessionState}
    {event : KeyEvent} (haction : event.action = .tab)
    (hmode : session.inputMode = .composing) :
    handleKey config services session event =
      handleTab config services { session with typoCorrections := [] } := by
  rw [handleKey_of_mode event (.inl hmode)]
  unfold handleAction
  rw [normalizeInputEvent_action, haction]

/-! ### Keys that select nothing shown -/

/-- Selecting outside the list fails, whatever the services answer. -/
theorem selectCandidate_outside (config : EngineConfig) (services : Services)
    {session : SessionState} {index : Nat} (mode : InputMode)
    (h : session.displayCandidates.length ≤ index) :
    selectCandidateWithRemainderMode config services session index mode =
      .error (outsideCandidates index) := by
  unfold selectCandidateWithRemainderMode
  rw [List.getElem?_eq_none h]

/-- A key that selects the current candidate fails where there is none. -/
theorem handleAction_outside_selected {config : EngineConfig} (services : Services)
    {session : SessionState} {event : KeyEvent} (hmode : session.inputMode = .selecting)
    (h : session.displayCandidates.length ≤ session.selectedCandidate)
    (haction : event.action ∈ [.enter, .eisu, .forget, .startUnicodeInput] ∨
      event.action = .right ∧ event.shift = false) :
    ∃ failure, handleAction config services session event = .error failure := by
  have hselect (mode : InputMode) := selectCandidate_outside config services mode h
  have hnone := List.getElem?_eq_none h
  simp only [List.mem_cons, List.not_mem_nil, or_false] at haction
  unfold handleAction
  rcases haction with (henter | heisu | hforget | hunicode) | hright
  · simp only [henter, handleEnter, hmode]
    exact ⟨_, hselect .previewing⟩
  · simp only [heisu, handleEisu, if_pos hmode, selectCandidate, hselect .previewing]
    exact ⟨_, rfl⟩
  · simp only [hforget, handleForget, if_pos hmode, forgetCandidate, hnone]
    exact ⟨_, rfl⟩
  · simp only [hunicode, enterUnicodeInput, hmode, hnone]
    exact ⟨_, rfl⟩
  · simp only [hright.1, handleArrow, hright.2, hmode]
    exact ⟨_, hselect .selecting⟩

theorem handleAction_outside_digit {config : EngineConfig} (services : Services)
    {session : SessionState} {event : KeyEvent} {number : Nat}
    (hmode : session.inputMode = .selecting) (haction : event.action = .input)
    (hnumber : selectionNumber event.text = some (number + 1))
    (h : session.displayCandidates.length ≤ pageIndex session (number + 1)) :
    ∃ failure, handleAction config services session event = .error failure := by
  have hselect := selectCandidate_outside config services .previewing h
  have henglish : ¬(session.inputMode = .none ∧ session.inputLanguage = .english ∧
      KeyEvent.typed event ≠ [] ∧ !(KeyEvent.typed event).any isControl) := by
    rw [hmode]
    exact fun hnone => InputMode.noConfusion hnone.1
  unfold handleAction
  simp only [haction, handleInput, if_neg henglish, if_pos hmode, hnumber]
  exact ⟨_, hselect⟩

theorem handleKey_outside {config : EngineConfig} (services : Services) (session : SessionState)
    {event : KeyEvent} {index : Nat} (hindex : selectedIndex config session event = some index)
    (h : session.displayCandidates.length ≤ index) :
    ∃ failure, handleKey config services session event = .error failure := by
  have hmode : session.inputMode = .selecting := by
    by_contra hmode
    rw [selectedIndex, if_neg hmode] at hindex
    cases hindex
  have hnone : directInput config { session with typoCorrections := [] } event = none := by
    unfold directInput
    exact if_neg fun hdirect => InputMode.noConfusion (hmode.symm.trans hdirect.2.1)
  have hkey : handleKey config services session event =
      handleAction config services { session with typoCorrections := [] }
        (normalizeInputEvent event config.inputBehavior) := by
    unfold handleKey
    dsimp only
    rw [hnone]
    exact if_neg fun hunicode => InputMode.noConfusion (hmode.symm.trans hunicode)
  have hselected (haction : event.action ∈ [.enter, .eisu, .forget, .startUnicodeInput] ∨
      event.action = .right ∧ event.shift = false) (heq : session.selectedCandidate = index) :
      ∃ failure, handleKey config services session event = .error failure := by
    have hnormal : normalizeInputEvent event config.inputBehavior = event :=
      normalizeInputEvent_of_ne _ fun hinput => by simp [hinput] at haction
    rw [hkey, hnormal]
    exact handleAction_outside_selected services hmode (heq ▸ h) haction
  rw [selectedIndex, if_pos hmode] at hindex
  split at hindex
  · rename_i haction
    exact hselected (.inl (by simp [haction])) (Option.some.inj hindex)
  · rename_i haction
    exact hselected (.inl (by simp [haction])) (Option.some.inj hindex)
  · rename_i haction
    exact hselected (.inl (by simp [haction])) (Option.some.inj hindex)
  · rename_i haction
    exact hselected (.inl (by simp [haction])) (Option.some.inj hindex)
  · rename_i haction
    split at hindex
    · cases hindex
    · rename_i hshift
      exact hselected (.inr ⟨haction, Bool.eq_false_iff.mpr hshift⟩) (Option.some.inj hindex)
  · rename_i haction
    split at hindex
    · rename_i number hnumber
      rw [hkey]
      refine handleAction_outside_digit services hmode ?_ hnumber (Option.some.inj hindex ▸ h)
      rw [normalizeInputEvent_action, haction]
    · cases hindex
  · cases hindex

/-! ### One key event -/

theorem surroundingContext_ok {event : KeyEvent} (h : event.WellFormed) (session : SessionState) :
    ∃ surrounding, updateSurrounding session (.keyEvent event) =
      .ok { session with surrounding } := by
  unfold updateSurrounding
  dsimp only
  cases hsurrounding : event.surroundingText with
  | none => exact ⟨session.surrounding, rfl⟩
  | some surrounding =>
    unfold surroundingContext
    cases havailable : surrounding.available with
    | false => exact ⟨{}, by simp [havailable, Except.map]⟩
    | true =>
      have hwithin := h surrounding hsurrounding havailable
      simp only [havailable, Bool.not_true, Bool.false_eq_true, if_false, Nat.not_lt.mpr hwithin.1,
        Nat.not_lt.mpr hwithin.2, or_self]
      exact ⟨_, rfl⟩

theorem handle_keyEvent {config : EngineConfig} {sessions : Sessions} {sessionId : String}
    {session : SessionState} (hsession : sessions sessionId = some session) (services : Services)
    {requestId : Nat} (hnumber : session.lastRequestId < requestId) {event : KeyEvent}
    (hevent : event.WellFormed) :
    ∃ surrounding, handle config services sessions ⟨requestId, sessionId, some (.keyEvent event)⟩ =
      match handleKey config services { session with lastRequestId := requestId, surrounding } event
        with
      | .error failure =>
        (⟨requestId, sessionId, some (.protocolError failure.code failure.message)⟩,
          Function.update sessions sessionId
            (some (reset { session with lastRequestId := requestId, surrounding })))
      | .ok (response, left) =>
        (⟨requestId, sessionId, some (.stateResponse response)⟩,
          Function.update sessions sessionId (some left)) := by
  obtain ⟨surrounding, hsurrounding⟩ :=
    surroundingContext_ok hevent { session with lastRequestId := requestId }
  refine ⟨surrounding, ?_⟩
  have hmessage : handleMessage config services (sessions sessionId) requestId
      (some (.keyEvent event)) =
        answerRequest config services { session with lastRequestId := requestId }
          (.keyEvent event) := by
    rw [hsession]
    exact if_neg (Nat.not_le.mpr hnumber)
  have hanswer : answerRequest config services { session with lastRequestId := requestId }
      (.keyEvent event) =
        match handleKey config services
          { session with lastRequestId := requestId, surrounding } event with
        | .error failure => (.protocolError failure.code failure.message,
            some (reset { session with lastRequestId := requestId, surrounding }))
        | .ok (response, left) => (.stateResponse response, some left) := by
    unfold answerRequest
    rw [hsurrounding]
    rfl
  unfold handle
  rw [hmessage, hanswer]
  cases handleKey config services { session with lastRequestId := requestId, surrounding } event
      with
  | error failure => rfl
  | ok result => rfl

/-! ### Services that answer for what stays inside -/

def insideAnswers (config : EngineConfig) : Answers :=
  { kanaAnswers with
    request := fun request =>
      if ConvertsInside config request.session.composing then kanaAnswers.request request
      else .error "conversion outside the lattice" }

def insideServices (config : EngineConfig) : Services :=
  { kanaServices with
    candidates := insideAnswers config
    display := insideAnswers config
    previousDisplay := insideAnswers config }

theorem insideServices_succeed (config : EngineConfig) :
    (insideServices config).SucceedInside config := by
  have hanswers : (insideAnswers config).SucceedInside config :=
    ⟨rfl, fun _ hinside => ⟨_, if_pos hinside⟩, fun _ hzenz => nomatch hzenz⟩
  exact
    { candidates := hanswers
      display := hanswers
      previousDisplay := hanswers
      typoCorrections := fun _ _ _ h => nomatch h
      learn := fun _ => rfl
      forgetLearning := fun _ => rfl
      resetLearning := rfl }

theorem insideAnswers_refuses (config : EngineConfig) {target : SessionState}
    (houtside : ¬ConvertsInside config (requestedText config target)) (rich : Bool)
    (leftContext : Option Text) :
    ∃ failure, requestCandidatesWithContext config (insideAnswers config) target rich leftContext =
      .error failure := by
  rw [← prepared_composing] at houtside
  have hrequest : (insideAnswers config).request ⟨target.prepared config, rich, leftContext⟩ =
      .error "conversion outside the lattice" := if_neg houtside
  have hconvert : (insideAnswers config).convert ⟨target.prepared config, rich, leftContext⟩ =
      .error (internal "candidate generation" "conversion outside the lattice") := by
    unfold Answers.convert
    rw [hrequest]
    rfl
  refine ⟨internal "candidate generation" "conversion outside the lattice", ?_⟩
  unfold requestCandidatesWithContext requestCandidatesForActiveTarget
  rw [show (insideAnswers config).validateLearning = .ok () from rfl, hconvert]
  rfl

/-- A text that leaves the lattice fails the key that asks for it. -/
theorem Asks.refused {config : EngineConfig} {asked : Option ComposingText} {result : KeyResult}
    (h : Asks config (insideServices config) asked result) {answer : StateResponse × SessionState}
    (hanswer : result = .ok answer) :
    ∀ text, asked = some text → ConvertsInside config text := by
  rintro text rfl
  by_contra houtside
  obtain ⟨target, rich, leftContext, rfl, hresult⟩ := h
  obtain ⟨failure, hfailure⟩ := insideAnswers_refuses config houtside rich leftContext
  rw [show (insideServices config).candidates = insideAnswers config from rfl, hfailure,
    hanswer] at hresult
  cases hresult

section
variable {config : EngineConfig} {services : Services} {sessions : Sessions} {sessionId : String}
  {session : SessionState} {event : KeyEvent} {requestId : Nat}

/-- An answer is the handler's, and so is the session it leaves. -/
theorem handleKey_of_answered (hsession : sessions sessionId = some session)
    (hevent : event.WellFormed) (hnumber : session.lastRequestId < requestId)
    {response : StateResponse}
    (h : (handle config services sessions
      ⟨requestId, sessionId, some (.keyEvent event)⟩).1.payload = some (.stateResponse response)) :
    ∃ surrounding left, handleKey config services
        { session with lastRequestId := requestId, surrounding } event = .ok (response, left) ∧
      (handle config services sessions
        ⟨requestId, sessionId, some (.keyEvent event)⟩).2 sessionId = some left := by
  obtain ⟨surrounding, hafter⟩ := handle_keyEvent hsession services hnumber hevent
  rw [hafter] at h ⊢
  refine ⟨surrounding, ?_⟩
  cases hresult : handleKey config services
      { session with lastRequestId := requestId, surrounding } event with
  | error failure => rw [hresult] at h; cases h
  | ok result =>
    rw [hresult] at h
    cases h
    exact ⟨result.2, rfl, Function.update_self ..⟩

theorem handleKey_asks_session (hservices : services.SucceedInside config)
    (hselects : SelectsShown config session event) (requestId : Nat)
    (surrounding : SurroundingContext) :
    Asks config services (keyAsked config session event)
      (handleKey config services
        { session with lastRequestId := requestId, surrounding } event) := by
  rw [← keyAsked_frame config session event requestId surrounding session.typoCorrections]
  exact handleKey_asks config hservices _ event hselects

/-- Services that answer for what stays inside answer a key that asks for such a text. -/
theorem answered_of_inside (hservices : services.SucceedInside config)
    (hsession : sessions sessionId = some session) (hevent : event.WellFormed)
    (hnumber : session.lastRequestId < requestId) (hselects : SelectsShown config session event)
    (hinside : ∀ text, keyAsked config session event = some text → ConvertsInside config text) :
    ∃ response, (handle config services sessions
      ⟨requestId, sessionId, some (.keyEvent event)⟩).1.payload =
        some (.stateResponse response) := by
  obtain ⟨surrounding, hafter⟩ := handle_keyEvent hsession services hnumber hevent
  obtain ⟨answer, hanswer⟩ :=
    (handleKey_asks_session hservices hselects requestId surrounding).answered hservices hinside
  rw [hafter, hanswer]
  exact ⟨answer.1, rfl⟩

/-- A key is answered only where it selects what is shown and, by services that refuse the
rest, where it asks for a text that stays inside. -/
theorem inside_of_answered (hsession : sessions sessionId = some session)
    (hevent : event.WellFormed) (hnumber : session.lastRequestId < requestId)
    {response : StateResponse}
    (h : (handle config (insideServices config) sessions
      ⟨requestId, sessionId, some (.keyEvent event)⟩).1.payload = some (.stateResponse response)) :
    SelectsShown config session event ∧
      ∀ text, keyAsked config session event = some text → ConvertsInside config text := by
  obtain ⟨surrounding, left, hanswer, -⟩ := handleKey_of_answered hsession hevent hnumber h
  have hselects : SelectsShown config session event := by
    intro index hselected
    by_contra houtside
    obtain ⟨failure, hfailure⟩ := handleKey_outside (insideServices config)
      { session with lastRequestId := requestId, surrounding } hselected (Nat.not_lt.mp houtside)
    cases hfailure.symm.trans hanswer
  exact ⟨hselects, (handleKey_asks_session (insideServices_succeed config) hselects requestId
    surrounding).refused hanswer⟩

theorem accepted_of_answered (hsession : sessions sessionId = some session)
    (hfull : session.conversion.fullComposing = none) (hmode : session.inputMode = .composing)
    {prediction : InputPrediction} (hprediction : session.prediction = some prediction)
    (hcandidate : prediction.candidate = none) (haction : event.action = .tab)
    (hevent : event.WellFormed) (hnumber : session.lastRequestId < requestId)
    {response : StateResponse}
    (h : (handle config services sessions
      ⟨requestId, sessionId, some (.keyEvent event)⟩).1.payload = some (.stateResponse response)) :
    ∃ accepted left, acceptPrediction config session prediction = some accepted ∧
      (handle config services sessions
        ⟨requestId, sessionId, some (.keyEvent event)⟩).2 sessionId = some left ∧
      left.composing = accepted.composing := by
  obtain ⟨surrounding, left, hanswer, hleft⟩ := handleKey_of_answered hsession hevent hnumber h
  obtain ⟨accepted, haccept⟩ := acceptPrediction_suffix config session hcandidate
  have hframed : acceptPrediction config
      { session with lastRequestId := requestId, surrounding, typoCorrections := [] } prediction =
        some { accepted with lastRequestId := requestId, surrounding, typoCorrections := [] } := by
    rw [acceptPrediction_frame, haccept]
    rfl
  have htab : handleKey config services { session with lastRequestId := requestId, surrounding }
      event = handleTab config services
        { session with lastRequestId := requestId, surrounding, typoCorrections := [] } :=
    handleKey_tab haction hmode
  rw [htab] at hanswer
  have hcomposing := handleTab_composing config
    { session with lastRequestId := requestId, surrounding, typoCorrections := [] }
    hmode hprediction hframed hfull hanswer
  exact ⟨accepted, left, haccept, hleft, hcomposing⟩

end

theorem eq_of_map {α β : Type*} (f : α → β) {found : Option α} {value : α} {read : β}
    (hfound : found = some value) (h : found.map f = some read) : f value = read := by
  subst hfound
  exact Option.some.inj h

end BeanKey.Engine
