import BeanKey.Engine.Effect

/-! What each key leaves behind. -/
namespace BeanKey.Engine
open Session Input Protocol SessionState
variable {config : EngineConfig} {services : Services} {key : Option KeyEvent}
  {event : KeyEvent} {session : SessionState} {result : StateResponse × SessionState}

theorem selectCandidateWithRemainderMode_outcome {index : Nat} {mode : InputMode}
    (hkeys : ∀ event, key = some event → event.action ∈ selectingKeys)
    (hfull : session.conversion.fullComposing = none)
    (hmode : mode = .previewing ∨ mode = .selecting)
    (h : selectCandidateWithRemainderMode config services session index mode = .ok result) :
    Outcome config services key session result := by
  unfold selectCandidateWithRemainderMode at h
  split at h
  · cases h
  · rename_i selected hselected
    have hshown : selected ∈ session.displayCandidates := List.mem_of_getElem? hselected
    exact .frame session.lastRequestId session.surrounding []
      (commitCandidate_outcome hkeys hfull (.inl hshown) hmode h)

theorem selectCandidate_outcome {index : Nat}
    (hkeys : ∀ event, key = some event → event.action ∈ selectingKeys)
    (hfull : session.conversion.fullComposing = none)
    (h : selectCandidate config services session index = .ok result) :
    Outcome config services key session result :=
  selectCandidateWithRemainderMode_outcome hkeys hfull (.inl rfl) h

theorem refreshed_outcome {target middle : SessionState}
    (hrequest : requestCandidates config services.candidates target = .ok middle)
    (hfull : session.conversion.fullComposing = none)
    (hconversion : target.conversion = session.conversion)
    (hsegment : target.segmentSurfaceCount = session.segmentSurfaceCount)
    (hmode : target.inputMode = session.inputMode) (hselected : target.selectedCandidate = 0)
    (h : respond middle true [] false = .ok result) :
    Outcome config services key session result := by
  cases h
  have hcomposing : target.composing = session.composing :=
    congrArg ConversionSession.composing hconversion
  have hanswered := requestCandidates_answered hrequest (hconversion ▸ hfull)
  have hkept : middle.composing = session.composing := hanswered.composing.trans hcomposing
  have hmiddle : middle.inputMode = session.inputMode := hanswered.inputMode.trans hmode
  refine ⟨.requested hrequest ⟨hanswered, .refl middle, fun _ => .inr ⟨rfl, hselected⟩,
    fun _ => ⟨hmiddle, hcomposing⟩, fun hpreviewing => ?_⟩, fun hne _ =>
    hkept ▸ GoesOn.fate .kept hne⟩
  refine .inr ⟨.inl (hmiddle.symm.trans hpreviewing), fun hwhole => ?_⟩
  show target.segmentSurfaceCount = none ∨ target.composing.isAtEnd = true
  rw [hsegment, hcomposing]
  exact hwhole

theorem forgetCandidate_outcome {index : Nat} (hfull : session.conversion.fullComposing = none)
    (h : forgetCandidate config services session index = .ok result) :
    Outcome config services key session result := by
  unfold forgetCandidate at h
  split at h
  · cases h
  · split at h
    · cases h
    · dsimp only at h
      split at h
      · cases h
      · rename_i hrequest
        exact refreshed_outcome hrequest hfull rfl rfl rfl rfl h

theorem resetLearning_outcome (hfull : session.conversion.fullComposing = none)
    (h : resetLearning config services session = .ok result) :
    Outcome config services key session result := by
  unfold resetLearning at h
  split at h
  · cases h
  · dsimp only at h
    split at h
    · cases h
      refine ⟨.kept ⟨rfl, rfl, rfl, rfl, rfl, rfl, rfl, .inr rfl⟩ (.same _)
        (fun _ => .inr fun hlen => hlen), fun hne _ => GoesOn.fate .kept hne⟩
    · split at h
      · cases h
      · rename_i hrequest
        exact refreshed_outcome hrequest hfull rfl rfl rfl rfl h

/-! ### Unicode input -/

theorem unicode_outcome {left : SessionState} {commit : Text}
    (haction : event.action = .startUnicodeInput) (hfull : left.conversion.fullComposing = none)
    (hcommit : commit = session.currentMarkedText)
    (h : respond { left.reset with inputMode := .unicode, unicodeInput := [] } true commit false =
      .ok result) :
    Outcome config services (some event) session result := by
  cases h
  refine ⟨.cleared ?_, fun _ _ => .committed event rfl (by simp [committingKeys, haction]) hcommit⟩
  exact ⟨rfl, rfl, rfl, rfl, rfl, rfl, hfull, InputMode.noConfusion, fun _ => rfl⟩

/-- Unicode input starts without a composition: the marked text is committed before. -/
theorem enterUnicodeInput_outcome (haction : event.action = .startUnicodeInput)
    (hfull : session.conversion.fullComposing = none)
    (hremainders : session.candidateRemainders =
      remaindersOf config session session.displayCandidates)
    (h : enterUnicodeInput config services session = .ok result) :
    Outcome config services (some event) session result := by
  unfold enterUnicodeInput at h
  have hidle (hmode : session.inputMode = .none ∨ session.inputMode = .unicode)
      (h : respond { session with inputMode := .unicode, unicodeInput := [] } true [] false =
        .ok result) : Outcome config services (some event) session result := by
    cases h
    exact ⟨.kept ⟨rfl, rfl, rfl, rfl, rfl, rfl, rfl, .inl rfl⟩ (.unicode hmode) (fun _ => .inl rfl),
      fun hne _ => GoesOn.fate .kept hne⟩
  cases hmode : session.inputMode with
  | none => exact hidle (.inl hmode) (by simpa [hmode] using h)
  | unicode => exact hidle (.inr hmode) (by simpa [hmode] using h)
  | composing | previewing =>
    simp only [hmode] at h
    split at h
    · cases h
    · rename_i learned hlearned
      exact unicode_outcome haction (learnCurrentMarkedCandidate_fullComposing hfull hlearned) rfl h
  | selecting =>
    simp only [hmode] at h
    split at h
    · cases h
    · rename_i candidate hcandidate
      split at h
      · cases h
      · rename_i commit left hselect
        obtain ⟨rfl, rfl⟩ := Prod.mk.inj (selectAndStageLearning_eq_ok hselect)
        refine unicode_outcome haction ?_ ?_ h
        · simpa using hfull
        · rw [currentMarkedText_selecting hmode hremainders hcandidate, remaining,
            ← selectCandidateValue_surfaceText]
          split
          · rename_i hempty
            rw [surfaceText_of_isEmpty hempty, List.append_nil]
          · rfl

theorem handleUnicodeInput_outcome (hempty : session.composing.isEmpty = true)
    (hfull : session.conversion.fullComposing = none)
    (h : handleUnicodeInput session event = .ok result) :
    Outcome config services key session result := by
  refine ⟨?_, fun hne _ => absurd hempty (by simp [hne])⟩
  have hkept (digits : Text) : Effect config services (key.map KeyEvent.action) session
      { session with unicodeInput := digits } :=
    .kept ⟨rfl, rfl, rfl, rfl, rfl, rfl, rfl, .inl rfl⟩ (.same _) (fun _ => .inl rfl)
  have hreset : Effect config services (key.map KeyEvent.action) session session.reset :=
    .cleared (reset_cleared hfull)
  unfold handleUnicodeInput at h
  split at h
  · cases h
    exact hkept _
  · split at h
    · cases h
      exact hreset
    · cases h
      exact hkept _
  · cases h
    exact hreset
  · cases h
    exact hreset
  · cases h
    exact hreset
  · cases h
    exact hkept _

/-! ### Typing -/

theorem composing_outcome {target middle after : SessionState} {commit : Text}
    {consumed reset : Bool}
    (hrequest : requestCandidates config services.candidates target = .ok middle)
    (hsame : SameLists middle after) (hafter : after.inputMode = .composing)
    (h : respond after consumed commit reset = .ok result)
    (hfull : target.conversion.fullComposing = none)
    (hfate : session.composing.isEmpty = false → session.TabKeeps config key →
      Fate config key session commit target.composing) :
    Outcome config services key session result := by
  cases h
  have hanswered := requestCandidates_answered hrequest hfull
  have hkept : after.composing = target.composing :=
    (congrArg ConversionSession.composing hsame.conversion).trans hanswered.composing
  refine ⟨.requested hrequest ⟨hanswered, hsame, ?_, ?_, ?_⟩, fun hne hkeeps => ?_⟩
  · intro hselecting
    rw [hafter] at hselecting
    cases hselecting
  · intro hidle
    rw [hafter] at hidle
    rcases hidle with hnone | hunicode
    · cases hnone
    · cases hunicode
  · intro hpreviewing
    rw [hafter] at hpreviewing
    cases hpreviewing
  · exact hkept ▸ hfate hne hkeeps

theorem composeEvent_outcome {before : SessionState} {commit : Text}
    (h : composeEvent config services session event commit = .ok result)
    (hfull : session.conversion.fullComposing = none)
    (hfate : before.composing.isEmpty = false →
      Fate config key before commit (insertEvent config session event).composing) :
    Outcome config services key before result := by
  unfold composeEvent at h
  dsimp only at h
  split at h
  · cases h
  · rename_i middle hrequest
    have hinserted := (insertEvent_fullComposing config session event).trans hfull
    have hmode : middle.inputMode = .composing :=
      (requestCandidates_answered hrequest hinserted).inputMode
    exact composing_outcome hrequest (.refl middle) hmode h hinserted fun hne _ => hfate hne

theorem handleText_outcome (haction : event.action = .input)
    (hfull : session.conversion.fullComposing = none)
    (h : handleText config services session event = .ok result) :
    Outcome config services (some event) session result := by
  unfold handleText at h
  split at h
  · dsimp only at h
    by_cases hcommit : committedByTyping session = []
    · rw [if_pos hcommit] at h
      exact composeEvent_outcome h hfull fun hne =>
        hcommit ▸ GoesOn.fate (.typed event rfl haction) hne
    · rw [if_neg hcommit] at h
      have hmarked : committedByTyping session = session.currentMarkedText := by
        unfold committedByTyping at hcommit ⊢
        split
        · rfl
        · rename_i hmode
          rw [if_neg hmode] at hcommit
          exact absurd rfl hcommit
      exact composeEvent_outcome h hfull fun _ => .typedOver event rfl haction hmarked
  · exact outcome_respond_self (fun _ => rfl) h

theorem handleInput_outcome (haction : event.action = .input)
    (hidle : session.inputMode = .none → session.composing.isEmpty = true)
    (hfull : session.conversion.fullComposing = none)
    (h : handleInput config services session event = .ok result) :
    Outcome config services (some event) session result := by
  unfold handleInput at h
  split at h
  · rename_i hdirect
    refine outcome_respond_self (fun hne => ?_) h
    rw [hidle hdirect.1] at hne
    cases hne
  · split at h
    · split at h
      · exact composeEvent_outcome h hfull fun _ => .typedOver event rfl haction rfl
      · refine selectCandidate_outcome (fun event' hkey => ?_) hfull h
        cases hkey
        simp [selectingKeys, haction]
      · exact handleText_outcome haction hfull h
    · exact handleText_outcome haction hfull h

/-! ### Deleting and leaving -/

theorem updateBackspaceCorrection_eq_ok {previous : ComposingText} {corrected : SessionState}
    (h : updateBackspaceCorrection config services session previous = .ok corrected) :
    ∃ correction, corrected = { session with backspaceCorrection := correction } := by
  unfold updateBackspaceCorrection at h
  cases hcandidates : requestTypoCorrections config services session previous with
  | error failure => rw [hcandidates] at h; cases h
  | ok candidates =>
    rw [hcandidates] at h
    simp only [bind, Except.bind] at h
    split at h
    · exact ⟨session.backspaceCorrection, (Except.ok.inj h).symm⟩
    · rename_i reading _
      cases hdisplay : convertedReading config services.display session reading with
      | error failure => rw [hdisplay] at h; cases h
      | ok display =>
        cases hprevious :
            convertedReading config services.previousDisplay session previous.surfaceText with
        | error failure => rw [hdisplay, hprevious] at h; cases h
        | ok previousDisplay =>
          rw [hdisplay, hprevious] at h
          obtain rfl := Except.ok.inj h
          split
          · exact ⟨some (display, reading), rfl⟩
          · exact ⟨session.backspaceCorrection, rfl⟩

theorem updateBackspaceCorrection_sameLists {previous : ComposingText} {corrected : SessionState}
    (h : updateBackspaceCorrection config services session previous = .ok corrected) :
    SameLists session corrected ∧ corrected.inputMode = session.inputMode := by
  obtain ⟨correction, rfl⟩ := updateBackspaceCorrection_eq_ok h
  exact ⟨⟨rfl, rfl, rfl, rfl, rfl, rfl, rfl, .inl rfl⟩, rfl⟩

variable (config) in
theorem suggestCorrection_sameLists (session : SessionState) :
    SameLists session (suggestCorrection config session) ∧
      (suggestCorrection config session).inputMode = session.inputMode := by
  unfold suggestCorrection
  split
  · exact ⟨.refl session, rfl⟩
  · split
    · exact ⟨⟨rfl, rfl, rfl, rfl, rfl, rfl, rfl, .inl rfl⟩, rfl⟩
    · exact ⟨⟨rfl, rfl, rfl, rfl, rfl, rfl, rfl, .inl rfl⟩, rfl⟩

theorem handleBackspace_outcome (haction : event.action = .backspace)
    (hfull : session.conversion.fullComposing = none)
    (h : handleBackspace config services session = .ok result) :
    Outcome config services (some event) session result := by
  unfold handleBackspace at h
  split at h
  · exact outcome_respond_self (fun _ => rfl) h
  · have hkey : (some event).map KeyEvent.action = some .backspace := congrArg some haction
    have hleft : (deleteLast config session).1.conversion.fullComposing = none := by
      show (ConversionSession.deleteBackward _ _ _).fullComposing = none
      rw [deleteBackward_fullComposing]
      exact hfull
    dsimp only at h
    split at h
    · rename_i hempty
      cases h
      exact ⟨.cleared (reset_cleared hleft), fun _ _ => .deleted hkey hempty rfl⟩
    · rename_i hrest
      split at h
      · cases h
      · rename_i middle hrequest
        split at h
        · cases h
        · rename_i corrected hcorrected
          have hmode : middle.inputMode = .composing :=
            (requestCandidates_answered hrequest hleft).inputMode
          have hshown : SameLists middle corrected ∧ corrected.inputMode = middle.inputMode := by
            have hlive : SameLists middle { middle with liveCandidate := none } :=
              ⟨rfl, rfl, rfl, rfl, rfl, rfl, rfl, .inr rfl⟩
            split at hcorrected
            · have hupdated := updateBackspaceCorrection_sameLists hcorrected
              exact ⟨hlive.trans hupdated.1, hupdated.2⟩
            · cases hcorrected
              exact ⟨hlive, rfl⟩
          have hsuggested := suggestCorrection_sameLists config corrected
          exact composing_outcome hrequest (hshown.1.trans hsuggested.1)
            (hsuggested.2.trans (hshown.2.trans hmode)) h hleft fun hne _ =>
              GoesOn.fate (.shortened hkey (Bool.eq_false_iff.mpr hrest)) hne

theorem handleEscape_outcome (haction : event.action = .escape)
    (hfull : session.conversion.fullComposing = none)
    (h : handleEscape config session = .ok result) :
    Outcome config services (some event) session result := by
  unfold handleEscape at h
  have hturn {mode : InputMode}
      (hmode : ModeChange config (some event.action) session.inputMode mode)
      (h : respond { session with inputMode := mode } true [] false = .ok result) :
      Outcome config services (some event) session result := by
    cases h
    exact ⟨.kept ⟨rfl, rfl, rfl, rfl, rfl, rfl, rfl, .inl rfl⟩ hmode (fun _ => .inl rfl),
      fun hne _ => GoesOn.fate .kept hne⟩
  cases hmode : session.inputMode with
  | none | unicode =>
    simp only [hmode] at h
    exact outcome_respond_self (fun _ => rfl) h
  | composing =>
    simp only [hmode] at h
    cases h
    exact ⟨.cleared (reset_cleared hfull), fun _ _ =>
      .cancelled (congrArg some haction) hmode rfl⟩
  | previewing =>
    simp only [hmode] at h
    exact hturn (hmode ▸ .closePreview) h
  | selecting =>
    simp only [hmode] at h
    cases hlive : config.liveConversion with
    | true =>
      simp only [hlive] at h
      exact hturn (hmode ▸ .closeLive hlive) h
    | false =>
      simp only [hlive] at h
      exact hturn (hmode ▸ .closeSelection (congrArg some haction) hlive) h

theorem handleEnter_outcome (haction : event.action = .enter)
    (hfull : session.conversion.fullComposing = none)
    (h : handleEnter config services session = .ok result) :
    Outcome config services (some event) session result := by
  unfold handleEnter at h
  split at h
  · exact outcome_respond_self (fun _ => rfl) h
  · refine selectCandidate_outcome (fun event' hkey => ?_) hfull h
    cases hkey
    simp [selectingKeys, haction]
  · dsimp only at h
    split at h
    · cases h
    · rename_i learned hlearned
      exact outcome_reset_committed (by simp [committingKeys, haction])
        (learnCurrentMarkedCandidate_fullComposing hfull hlearned) h

/-! ### Moving through the candidates -/

theorem separated_fullComposing (hfull : session.conversion.fullComposing = none) :
    (session.separated config).conversion.fullComposing = none :=
  (insertCompositionSeparator_fullComposing _ _ _).trans hfull

theorem openSelection_outcome {target : SessionState}
    (h : openSelection config services target = .ok result)
    (hfull : target.conversion.fullComposing = none)
    (hgoes : GoesOn config key session target.composing) :
    Outcome config services key session result := by
  unfold openSelection at h
  split at h
  · cases h
  · rename_i middle hrequest
    cases h
    have hanswered := requestCandidates_answered hrequest hfull
    have hkept : middle.composing = target.composing := hanswered.composing
    refine ⟨.requested hrequest ⟨hanswered, ⟨rfl, rfl, rfl, rfl, rfl, rfl, rfl, .inl rfl⟩,
      fun _ => .inl rfl, ?_, ?_⟩, fun hne _ => GoesOn.fate ?_ hne⟩
    · intro hidle
      rcases hidle with hnone | hunicode
      · cases hnone
      · cases hunicode
    · intro hpreviewing
      cases hpreviewing
    · show GoesOn _ _ _ middle.composing
      rw [hkept]
      exact hgoes

theorem selectNext_outcome {consumed reset : Bool}
    (h : respond session.selectNext consumed [] reset = .ok result) :
    Outcome config services key session result := by
  cases h
  unfold selectNext
  dsimp only
  split
  · refine ⟨.kept ⟨rfl, rfl, rfl, rfl, rfl, rfl, rfl, .inl rfl⟩ (.same _)
      (fun _ => .inr fun _ => ?_),
      fun hne _ => GoesOn.fate .kept hne⟩
    show min _ _ < session.displayCandidates.length
    omega
  · exact ⟨.kept (.refl session) (.same _) (fun _ => .inl rfl), fun hne _ => GoesOn.fate .kept hne⟩

theorem selectPrevious_outcome {consumed reset : Bool}
    (hselected : 0 < session.displayCandidates.length →
      session.selectedCandidate < session.displayCandidates.length)
    (h : respond session.selectPrevious consumed [] reset = .ok result) :
    Outcome config services key session result := by
  cases h
  refine ⟨.kept ⟨rfl, rfl, rfl, rfl, rfl, rfl, rfl, .inl rfl⟩ (.same _)
    (fun _ => .inr fun hlen => ?_),
    fun hne _ => GoesOn.fate .kept hne⟩
  exact (Nat.sub_le _ 1).trans_lt (hselected hlen)

theorem handleSpace_outcome (haction : event.action = .space)
    (hidle : session.inputMode = .none → session.composing.isEmpty = true)
    (hselected : session.inputMode = .selecting → 0 < session.displayCandidates.length →
      session.selectedCandidate < session.displayCandidates.length)
    (hfull : session.conversion.fullComposing = none)
    (h : handleSpace config services session event = .ok result) :
    Outcome config services (some event) session result := by
  have hkey : (some event).map KeyEvent.action = some .space := congrArg some haction
  unfold handleSpace at h
  cases hmode : session.inputMode with
  | none =>
    simp only [hmode] at h
    refine outcome_respond_self (fun hne => ?_) h
    rw [hidle hmode] at hne
    cases hne
  | unicode =>
    simp only [hmode] at h
    exact outcome_respond_self (fun _ => rfl) h
  | composing =>
    simp only [hmode] at h
    split at h
    · rename_i henglish
      cases h
      refine ⟨.cleared ⟨rfl, rfl, rfl, rfl, rfl, rfl, hfull, ?_, ?_⟩,
        fun hne _ => GoesOn.fate (.spaced hkey henglish) hne⟩
      · exact fun hpreviewing => InputMode.noConfusion (hmode.symm.trans hpreviewing)
      · intro hidle
        rcases hidle with hnone | hunicode
        · exact InputMode.noConfusion (hmode.symm.trans hnone)
        · exact InputMode.noConfusion (hmode.symm.trans hunicode)
    · rename_i hlanguage
      split at h
      · exact openSelection_outcome h (separated_fullComposing hfull) (.separated (.inl hkey))
      · rename_i hlive
        have hpreviews : SpacePreviews config (some event.action) session :=
          ⟨congrArg some haction, hmode, hlanguage, by simpa using hlive⟩
        split at h
        · cases h
        · rename_i middle hrequest
          cases h
          have hanswered := requestCandidates_answered hrequest (separated_fullComposing hfull)
          have hmiddle : middle.inputMode = .previewing := hanswered.inputMode
          have hkept : middle.composing = (session.separated config).composing :=
            hanswered.composing
          refine ⟨.requested hrequest ⟨hanswered, ⟨rfl, rfl, rfl, rfl, rfl, rfl, rfl, .inl rfl⟩,
            ?_, ?_, fun _ => .inr ⟨.inr hpreviews, separated_convertsWhole⟩⟩,
            fun hne _ => GoesOn.fate ?_ hne⟩
          · exact fun hselecting => InputMode.noConfusion (hmiddle.symm.trans hselecting)
          · intro hidle
            rcases hidle with hnone | hunicode
            · exact InputMode.noConfusion (hmiddle.symm.trans hnone)
            · exact InputMode.noConfusion (hmiddle.symm.trans hunicode)
          · show GoesOn _ _ _ middle.composing
            rw [hkept]
            exact .separated (.inl hkey)
  | previewing =>
    simp only [hmode] at h
    exact openSelection_outcome h hfull .kept
  | selecting =>
    simp only [hmode] at h
    split at h
    · exact outcome_respond_self (fun _ => rfl) h
    · split at h
      · exact selectPrevious_outcome (hselected hmode) h
      · exact selectNext_outcome h

theorem handleDown_outcome (haction : event.action = .down)
    (hfull : session.conversion.fullComposing = none)
    (h : handleDown config services session = .ok result) :
    Outcome config services (some event) session result := by
  unfold handleDown at h
  cases hmode : session.inputMode with
  | none | unicode =>
    simp only [hmode] at h
    exact outcome_respond_self (fun _ => rfl) h
  | composing | previewing =>
    simp only [hmode] at h
    exact openSelection_outcome h (separated_fullComposing hfull)
      (.separated (.inr (congrArg some haction)))
  | selecting =>
    simp only [hmode] at h
    exact selectNext_outcome h

theorem handleUp_outcome
    (hselected : session.inputMode = .selecting → 0 < session.displayCandidates.length →
      session.selectedCandidate < session.displayCandidates.length)
    (h : handleUp config session = .ok result) :
    Outcome config services key session result := by
  unfold handleUp at h
  split at h
  · rename_i hmode
    split at h
    · cases h
      exact ⟨.revealed hmode (.refl _) hmode rfl, fun hne _ => GoesOn.fate .kept hne⟩
    · exact selectPrevious_outcome (hselected hmode) h
  · exact outcome_respond_self (fun _ => rfl) h

theorem segmented_composing (session : SessionState) (right : Bool) :
    ∃ cursor, (session.segmented config right).composing =
      { session.composing with cursor := cursor } := by
  have hafter : ∃ cursor, (cursorAfterSelection config session).composing =
      { session.composing with cursor := cursor } := by
    unfold cursorAfterSelection
    split
    · exact ⟨session.composing.cursor, rfl⟩
    · exact ⟨_, rfl⟩
  obtain ⟨cursor, hcursor⟩ := hafter
  refine ⟨_, congrArg (fun text => (text.moveCursor
    ((segmentTarget (cursorAfterSelection config session).composing right : Int) -
      (cursorAfterSelection config session).composing.cursor)).1) hcursor⟩

theorem cursorAfterSelection_fullComposing (session : SessionState) :
    (cursorAfterSelection config session).fullComposing = session.conversion.fullComposing := by
  unfold cursorAfterSelection
  split <;> rfl

theorem moveSegment_outcome {right : Bool} (haction : event.action = .left ∨ event.action = .right)
    (hshift : event.shift = true) (hfull : session.conversion.fullComposing = none)
    (h : moveSegment config services session right = .ok result) :
    Outcome config services (some event) session result := by
  unfold moveSegment at h
  split at h
  · cases h
  · rename_i middle hrequest
    cases h
    have hanswered := requestCandidates_answered hrequest
      ((cursorAfterSelection_fullComposing session).trans hfull)
    have hmiddle : middle.inputMode = .selecting := hanswered.inputMode
    have hkept : middle.composing = (session.segmented config right).composing :=
      hanswered.composing
    refine ⟨.requested hrequest ⟨hanswered, ⟨rfl, rfl, rfl, rfl, rfl, rfl, rfl, .inr rfl⟩,
      fun _ => .inr ⟨rfl, rfl⟩, ?_, ?_⟩, fun hne _ => GoesOn.fate ?_ hne⟩
    · intro hidle
      rcases hidle with hnone | hunicode
      · exact InputMode.noConfusion (hmiddle.symm.trans hnone)
      · exact InputMode.noConfusion (hmiddle.symm.trans hunicode)
    · exact fun hpreviewing => InputMode.noConfusion (hmiddle.symm.trans hpreviewing)
    · obtain ⟨cursor, hcursor⟩ := @segmented_composing config session right
      show GoesOn _ _ _ middle.composing
      rw [hkept, hcursor]
      exact .moved event cursor rfl haction hshift

theorem handleArrow_outcome (right : Bool)
    (haction : event.action = if right then .right else .left)
    (hfull : session.conversion.fullComposing = none)
    (h : handleArrow config services session event right = .ok result) :
    Outcome config services (some event) session result := by
  unfold handleArrow at h
  split at h
  · exact outcome_respond_self (fun _ => rfl) h
  · split at h
    · rename_i hshift
      refine moveSegment_outcome ?_ hshift hfull h
      cases right with
      | true => exact .inr haction
      | false => exact .inl haction
    · split at h
      · rename_i hright
        refine selectCandidateWithRemainderMode_outcome (fun event' hkey => ?_) hfull (.inr rfl) h
        cases hkey
        rw [haction, hright.1]
        decide
      · exact outcome_respond_self (fun _ => rfl) h

/-! ### Predictions, representations and languages -/

theorem acceptPredictionCandidate_accepts {conversion accepted : ConversionSession}
    {unicode : UnicodeTable} {tables : InputTableRegistry} {candidate : Session.Candidate}
    (h : conversion.acceptPredictionCandidate unicode tables candidate = some accepted) :
    accepted.composing.isEmpty = false ∧ accepted.fullComposing = conversion.fullComposing := by
  unfold ConversionSession.acceptPredictionCandidate at h
  split at h
  · cases h
  · dsimp only at h
    split at h
    · cases h
    · cases h
    · rename_i remaining hremaining _
      cases h
      refine ⟨insert_direct_isEmpty tables _ ?_, rfl⟩
      rw [ne_eq, graphemes_eq_nil]
      exact hremaining

theorem acceptPrediction_kept {prediction : InputPrediction} {accepted : SessionState}
    (h : acceptPrediction config session prediction = some accepted) :
    accepted.conversion.fullComposing = session.conversion.fullComposing ∧
      accepted.inputMode = session.inputMode := by
  unfold acceptPrediction at h
  dsimp only at h
  split at h
  · obtain ⟨conversion, hconversion, rfl⟩ := Option.map_eq_some_iff.mp h
    exact ⟨(acceptPredictionCandidate_accepts hconversion).2, rfl⟩
  · have hdeleted : (if 0 < prediction.deleteCount then
        session.conversion.deleteBackward config.tables prediction.deleteCount
          else session.conversion).fullComposing = session.conversion.fullComposing := by
      split
      · exact deleteBackward_fullComposing _ _ _
      · rfl
    split at h
    · cases h
      exact ⟨hdeleted, rfl⟩
    · cases h
      exact ⟨hdeleted, rfl⟩

theorem deleteBackward_composing_of_pos (conversion : ConversionSession)
    (tables : InputTableRegistry) (count : Nat) :
    (if 0 < count then conversion.deleteBackward tables count else conversion).composing =
      conversion.composing.deleteBackward tables count := by
  split
  · exact deleteBackward_composing _ _ _
  · rename_i hzero
    rw [Nat.eq_zero_of_not_pos hzero]
    simp [ComposingText.deleteBackward]

/-- An accepted prediction leaves a text unless it only deletes, and deletes everything. -/
theorem acceptPrediction_isEmpty {prediction : InputPrediction} {accepted : SessionState}
    (h : acceptPrediction config session prediction = some accepted) :
    accepted.composing.isEmpty = true ↔ prediction.candidate = none ∧ prediction.appendText = [] ∧
      (session.composing.deleteBackward config.tables prediction.deleteCount).isEmpty = true := by
  unfold acceptPrediction at h
  dsimp only at h
  split at h
  · rename_i candidate hcandidate
    obtain ⟨conversion, hconversion, rfl⟩ := Option.map_eq_some_iff.mp h
    have hleft := (acceptPredictionCandidate_accepts hconversion).1
    constructor
    · intro hempty
      exact absurd (hleft.symm.trans hempty) Bool.false_ne_true
    · rintro ⟨hnone, -⟩
      rw [hcandidate] at hnone
      cases hnone
  · rename_i hcandidate
    have hdeleted := deleteBackward_composing_of_pos session.conversion config.tables
      prediction.deleteCount
    split at h
    · rename_i happend
      cases h
      rw [← hdeleted]
      exact ⟨fun hempty => ⟨hcandidate, happend, hempty⟩, fun hempty => hempty.2.2⟩
    · rename_i happend
      cases h
      have hleft := insert_direct_isEmpty config.tables
        (if 0 < prediction.deleteCount then
          session.conversion.deleteBackward config.tables prediction.deleteCount
            else session.conversion).composing
        (show graphemes config.unicode prediction.appendText ≠ [] by
          rwa [ne_eq, graphemes_eq_nil])
      constructor
      · intro hempty
        exact absurd (hleft.symm.trans hempty) Bool.false_ne_true
      · exact fun hempty => absurd hempty.2.1 happend

theorem handleTab_outcome (haction : event.action = .tab)
    (hfull : session.conversion.fullComposing = none)
    (h : handleTab config services session = .ok result) :
    Outcome config services (some event) session result := by
  unfold handleTab at h
  split at h
  · exact outcome_respond_self (fun _ => rfl) h
  · split at h
    · exact outcome_respond_self (fun _ => rfl) h
    · rename_i prediction hprediction
      have hmode : session.inputMode = .composing := by
        by_contra hmode
        rw [if_neg hmode] at hprediction
        cases hprediction
      rw [if_pos hmode] at hprediction
      split at h
      · cases h
        exact ⟨.kept ⟨rfl, rfl, rfl, rfl, rfl, rfl, rfl, .inl rfl⟩ (.same _) (fun _ => .inl rfl),
          fun hne _ => GoesOn.fate .kept hne⟩
      · rename_i accepted haccepted
        have hkept := acceptPrediction_kept haccepted
        split at h
        · cases h
        · rename_i middle hrequest
          have hanswered := requestCandidates_answered hrequest (hkept.1.trans hfull)
          have hmiddle : middle.inputMode = .composing :=
            hanswered.inputMode.trans (hkept.2.trans hmode)
          refine composing_outcome hrequest (.refl middle) hmiddle h (hkept.1.trans hfull)
            fun hne hkeeps => GoesOn.fate (.completed prediction accepted (congrArg some haction)
              hmode hprediction haccepted (Bool.eq_false_iff.mpr fun hempty => ?_)) hne
          obtain ⟨hcandidate, happend, hleft⟩ := (acceptPrediction_isEmpty haccepted).mp hempty
          exact absurd ((hkeeps (congrArg some haction) hmode hne prediction hprediction hcandidate
            happend).symm.trans hleft) Bool.false_ne_true

def representationKeys : List UserAction :=
  [.halfWidthRoman, .fullWidthRoman, .halfWidthKatakana, .katakana, .hiragana]

theorem handleRepresentation_outcome {index : Fin 5} (haction : event.action ∈ representationKeys)
    (hfull : session.conversion.fullComposing = none)
    (h : handleRepresentation config services session index = .ok result) :
    Outcome config services (some event) session result := by
  unfold handleRepresentation at h
  split at h
  · exact outcome_respond_self (fun _ => rfl) h
  · dsimp only at h
    split at h
    · exact outcome_respond_self (fun _ => rfl) h
    · rename_i transformed htransformed
      have hoffered : session.Offers config transformed.1 :=
        .inr (List.mem_map_of_mem (List.mem_of_getElem? htransformed))
      refine commitCandidate_outcome (fun event' hkey => ?_) hfull hoffered (.inr rfl) h
      cases hkey
      exact List.mem_append_right [.enter, .eisu, .right, .input] haction

theorem SessionState.Outcome.setLanguage {response : StateResponse} {left : SessionState}
    {language : Protocol.InputLanguage} (answer : StateResponse)
    (hcommit : answer.commit = response.commit)
    (h : Outcome config services key session (response, left)) :
    Outcome config services key session (answer, { left with inputLanguage := language }) := by
  refine ⟨?_, fun hne hkeeps => ?_⟩
  · cases h.1 with
    | kept hsame hmode hselects =>
      exact .kept ⟨hsame.1, hsame.2, hsame.3, hsame.4, hsame.5, hsame.6, hsame.7, hsame.8⟩
        hmode hselects
    | cleared hcleared =>
      exact .cleared ⟨hcleared.1, hcleared.2, hcleared.3, hcleared.4, hcleared.5, hcleared.6,
        hcleared.7, hcleared.8, hcleared.9⟩
    | requested hrequest hrequested =>
      have hsame := hrequested.same
      exact .requested hrequest ⟨hrequested.answered,
        ⟨hsame.1, hsame.2, hsame.3, hsame.4, hsame.5, hsame.6, hsame.7, hsame.8⟩,
        hrequested.selects, hrequested.idle, hrequested.previews⟩
    | revealed hmode hsame hafter hzero =>
      exact .revealed hmode
        ⟨hsame.1, hsame.2, hsame.3, hsame.4, hsame.5, hsame.6, hsame.7, hsame.8⟩ hafter hzero
  · show Fate config key session answer.commit left.composing
    rw [hcommit]
    exact h.2 hne hkeeps

theorem handleEisu_outcome (haction : event.action = .eisu)
    (hfull : session.conversion.fullComposing = none)
    (h : handleEisu config services session = .ok result) :
    Outcome config services (some event) session result := by
  unfold handleEisu at h
  split at h
  · split at h
    · cases h
    · rename_i response left hselect
      cases h
      refine (selectCandidate_outcome (fun event' hkey => ?_) hfull hselect).setLanguage _ rfl
      cases hkey
      simp [selectingKeys, haction]
  · cases h
    exact ⟨.kept ⟨rfl, rfl, rfl, rfl, rfl, rfl, rfl, .inl rfl⟩ (.same _) (fun _ => .inl rfl),
      fun hne _ => GoesOn.fate .kept hne⟩

theorem handleForget_outcome (hfull : session.conversion.fullComposing = none)
    (h : handleForget config services session = .ok result) :
    Outcome config services key session result := by
  unfold handleForget at h
  split at h
  · exact forgetCandidate_outcome hfull h
  · exact outcome_respond_self (fun _ => rfl) h

end BeanKey.Engine
