import BeanKey.Engine.Presentation
import BeanKey.Input.Landing

/-! The correction a backspace suggests, kept in step with the composing text: while it is
shown it is the edit that turns the text there is into the corrected reading. -/
namespace BeanKey.Engine
open Session Input Protocol SessionState
variable {config : EngineConfig} {services : Services} {session : SessionState}

namespace SessionState

/-- The surface is the conversion of the input, a kept correction is about a text with the
cursor at its end, and a shown one is the edit of that text. -/
structure Suggests (config : EngineConfig) (session : SessionState) : Prop where
  fullComposing : session.conversion.fullComposing = none
  coherent : session.composing.Coherent config.tables
  held : session.backspaceCorrection.isSome = true →
    session.segmentSurfaceCount = none ∧ session.composing.isAtEnd = true
  offered : ∀ prediction, session.prediction = some prediction → prediction.candidate = none →
    ∃ display target, session.backspaceCorrection = some (display, target) ∧
      suffixEditPrediction config.unicode session.composing.surfaceText target display =
        some prediction

/-- A session as a request finds it: a correction it will keep is about the whole text, with
the cursor at its end. -/
structure Ready (config : EngineConfig) (session : SessionState) : Prop where
  fullComposing : session.conversion.fullComposing = none
  coherent : session.composing.Coherent config.tables
  held : session.lastWasBackspace = true → session.backspaceCorrection.isSome = true →
    session.segmentSurfaceCount = none ∧ session.composing.isAtEnd = true

theorem Suggests.congr {before after : SessionState} (h : before.Suggests config)
    (hconversion : after.conversion = before.conversion)
    (hsegment : after.segmentSurfaceCount = before.segmentSurfaceCount)
    (hprediction : after.prediction = before.prediction)
    (hcorrection : after.backspaceCorrection = before.backspaceCorrection) :
    after.Suggests config := by
  have hcomposing : after.composing = before.composing :=
    congrArg ConversionSession.composing hconversion
  refine ⟨hconversion ▸ h.fullComposing, hcomposing ▸ h.coherent, ?_, ?_⟩
  · rw [hsegment, hcorrection, hcomposing]
    exact h.held
  · rw [hprediction, hcorrection, hcomposing]
    exact h.offered

/-- Where neither a correction nor a prediction is left, the text alone counts. -/
theorem Suggests.of_none (hfull : session.conversion.fullComposing = none)
    (hcoherent : session.composing.Coherent config.tables) (hprediction : session.prediction = none)
    (hcorrection : session.backspaceCorrection = none) : session.Suggests config where
  fullComposing := hfull
  coherent := hcoherent
  held hsome := by rw [hcorrection] at hsome; cases hsome
  offered prediction hsome := by rw [hprediction] at hsome; cases hsome

theorem Ready.of_typed (hfull : session.conversion.fullComposing = none)
    (hcoherent : session.composing.Coherent config.tables)
    (htyped : session.lastWasBackspace = false) : session.Ready config where
  fullComposing := hfull
  coherent := hcoherent
  held hback := by rw [htyped] at hback; cases hback

theorem Suggests.ready (h : session.Suggests config) : session.Ready config :=
  ⟨h.fullComposing, h.coherent, fun _ => h.held⟩

theorem reset_suggests (h : session.conversion.fullComposing = none) :
    session.reset.Suggests config :=
  .of_none h ComposingText.new_wellFormed.coherent rfl rfl

/-! ### A request -/

theorem manualPrediction_candidate {surface : Text} {predictions : List Session.Candidate}
    {prediction : InputPrediction} (h : manualPrediction surface predictions = some prediction) :
    prediction.candidate ≠ none := by
  unfold manualPrediction at h
  dsimp only at h
  generalize (if surface.getLast?.any isAsciiAlphabetic = true then 1 else 0) = deleteCount at h
  split at h
  · cases h
  · obtain ⟨candidate, -, hfound⟩ := List.exists_of_findSome?_eq_some h
    split at hfound
    · cases hfound
    · cases hfound
    · cases hfound
      exact Option.some_ne_none candidate

/-- A prediction without a candidate is the kept correction. -/
theorem inputPrediction_correction {unicode : UnicodeTable} {result : ConversionResult}
    {prediction : InputPrediction} (h : inputPrediction unicode session result = some prediction)
    (hcandidate : prediction.candidate = none) :
    ∃ display target, session.backspaceCorrection = some (display, target) ∧
      suffixEditPrediction unicode session.composing.surfaceText target display =
        some prediction := by
  unfold inputPrediction at h
  dsimp only at h
  split at h
  · rename_i correction hcorrection
    cases h
    obtain ⟨⟨display, target⟩, hkept, hedit⟩ := Option.bind_eq_some_iff.mp hcorrection
    exact ⟨display, target, hkept, hedit⟩
  · split at h
    · cases h
    · exact absurd hcandidate (manualPrediction_candidate h)

theorem prepared_backspaceCorrection (session : SessionState) :
    (session.prepared config).backspaceCorrection =
      if session.lastWasBackspace then session.backspaceCorrection else none := by
  cases hback : session.lastWasBackspace <;> cases hsegment : session.segmentSurfaceCount <;>
    simp [prepared, hback, hsegment]

theorem finished_backspaceCorrection (session : SessionState) :
    (session.finished config).backspaceCorrection = session.backspaceCorrection := by
  unfold finished
  split <;> rfl

theorem finished_prediction (session : SessionState) :
    (session.finished config).prediction = session.prediction := by
  unfold finished
  split <;> rfl

theorem Ready.prepared (h : session.Ready config)
    (hsome : (session.prepared config).backspaceCorrection.isSome = true) :
    session.segmentSurfaceCount = none ∧ session.composing.isAtEnd = true := by
  rw [prepared_backspaceCorrection] at hsome
  split at hsome
  · rename_i hback
    exact h.held hback hsome
  · cases hsome

theorem Ready.requested {answers : Answers} {after : SessionState} {rich : Bool}
    {leftContext : Option Text} (h : session.Ready config)
    (hrequest : requestCandidatesWithContext config answers session rich leftContext = .ok after) :
    after.Suggests config := by
  have hanswered := requestCandidates_answered hrequest h.fullComposing
  obtain ⟨result, evaluated, -, hafter⟩ := requestCandidates_eq_ok hrequest
  have hcorrection : after.backspaceCorrection = (session.prepared config).backspaceCorrection := by
    rw [hafter, finished_backspaceCorrection]
    rfl
  have hprediction : after.prediction =
      inputPrediction config.unicode (session.prepared config) result := by
    rw [hafter, finished_prediction]
    rfl
  have hcomposing : after.composing = session.composing := hanswered.composing
  refine ⟨hanswered.fullComposing, hcomposing ▸ h.coherent, fun hsome => ?_,
    fun prediction hsome hcandidate => ?_⟩
  · rw [hcorrection] at hsome
    rw [hanswered.segmentSurfaceCount, hcomposing]
    exact h.prepared hsome
  · rw [hprediction] at hsome
    obtain ⟨display, target, hkept, hedit⟩ := inputPrediction_correction hsome hcandidate
    have hwhole := h.prepared (by rw [hkept]; rfl)
    refine ⟨display, target, hcorrection.trans hkept, ?_⟩
    rw [hcomposing, ← hedit, ← prepared_composing config (.inl hwhole.1)]

theorem requestCandidates_backspaceCorrection {answers : Answers} {after : SessionState}
    {rich : Bool} {leftContext : Option Text}
    (h : requestCandidatesWithContext config answers session rich leftContext = .ok after) :
    after.backspaceCorrection =
      if session.lastWasBackspace then session.backspaceCorrection else none := by
  obtain ⟨result, evaluated, -, rfl⟩ := requestCandidates_eq_ok h
  rw [finished_backspaceCorrection]
  exact prepared_backspaceCorrection session

/-! ### The edits -/

theorem selectCandidateValue_coherent {conversion : ConversionSession} {tables : InputTableRegistry}
    (h : conversion.composing.Coherent tables) (candidate : Session.Candidate) :
    (conversion.selectCandidateValue tables candidate).composing.Coherent tables := by
  unfold ConversionSession.selectCandidateValue
  dsimp only
  split
  · exact ComposingText.new_wellFormed.coherent
  · exact ComposingText.completePrefix_coherent h candidate.composingCount

theorem insertStr_coherent {text : ComposingText} {unicode : UnicodeTable}
    {tables : InputTableRegistry} (h : text.Coherent tables) (hvisible : ¬text.HidesInput)
    (value : Text) (style : Input.InputStyle) :
    (text.insertStr unicode tables value style).Coherent tables := by
  refine ComposingText.insert_coherent h (fun element hin => ?_) fun _ => hvisible
  obtain ⟨grapheme, -, rfl⟩ := List.mem_map.mp hin
  exact quiet_of_piece_ne InputPiece.noConfusion

theorem insertEvent_coherent (h : session.composing.Coherent config.tables)
    (hvisible : ¬session.composing.HidesInput) (event : KeyEvent) :
    (insertEvent config session event).composing.Coherent config.tables := by
  unfold insertEvent
  dsimp only [composing]
  split
  · exact insertStr_coherent h hvisible _ _
  · split
    · split
      · rw [insertKey_composing]
        refine ComposingText.insert_coherent h (fun element hin => ?_) fun _ => hvisible
        rw [List.mem_singleton.mp hin]
        exact quiet_of_piece_ne InputPiece.noConfusion
      · exact insertStr_coherent h hvisible _ _
    · exact insertStr_coherent h hvisible _ _

theorem separated_coherent (hs : config.tables.Silent)
    (h : session.composing.Coherent config.tables) (hvisible : ¬session.composing.HidesInput) :
    (session.separated config).composing.Coherent config.tables := by
  show (session.conversion.insertCompositionSeparator config.tables
    session.inputStyle).composing.Coherent _
  unfold ConversionSession.insertCompositionSeparator
  split
  · exact h
  · rw [edited_composing]
    exact ComposingText.insert_coherent h (fun element _ => hs.quiet element) fun _ => hvisible

theorem acceptPredictionCandidate_coherent {conversion accepted : ConversionSession}
    {unicode : UnicodeTable} {tables : InputTableRegistry} {candidate : Session.Candidate}
    (h : conversion.composing.Coherent tables) (hvisible : ¬conversion.composing.HidesInput)
    (haccept : conversion.acceptPredictionCandidate unicode tables candidate = some accepted) :
    accepted.composing.Coherent tables := by
  unfold ConversionSession.acceptPredictionCandidate at haccept
  split at haccept
  · cases haccept
  · rename_i hend
    have hend : conversion.composing.isAtEnd = true := by
      simp only [Bool.or_eq_true, Bool.not_eq_true', not_or, Bool.not_eq_false] at hend
      exact hend.2
    dsimp only at haccept
    split at haccept
    · cases haccept
    · cases haccept
    · cases haccept
      dsimp only
      split
      · exact insertStr_coherent (ComposingText.deleteBackward_coherent h _)
          (ComposingText.deleteBackward_shows h hend hvisible _) _ _
      · exact insertStr_coherent h hvisible _ _

/-- What a correction leaves to convert: the text behind the deleted positions and before
what it appends. -/
theorem acceptPrediction_ready {prediction : InputPrediction} {accepted : SessionState}
    (h : session.Suggests config) (hvisible : ¬session.composing.HidesInput)
    (hprediction : session.prediction = some prediction)
    (haccept : acceptPrediction config session prediction = some accepted) :
    accepted.Ready config := by
  have hfull : accepted.conversion.fullComposing = none :=
    (acceptPrediction_kept haccept).1.trans h.fullComposing
  unfold acceptPrediction at haccept
  dsimp only at haccept
  split at haccept
  · obtain ⟨conversion, hconversion, rfl⟩ := Option.map_eq_some_iff.mp haccept
    exact .of_typed hfull (acceptPredictionCandidate_coherent h.coherent hvisible hconversion) rfl
  · rename_i hcandidate
    obtain ⟨display, target, hkept, -⟩ := h.offered prediction hprediction hcandidate
    have hend := (h.held (by rw [hkept]; rfl)).2
    have hdeleted : ∀ conversion, conversion = (if 0 < prediction.deleteCount then
        session.conversion.deleteBackward config.tables prediction.deleteCount
          else session.conversion) →
        conversion.composing.Coherent config.tables ∧ ¬conversion.composing.HidesInput := by
      intro conversion hconversion
      split at hconversion
      · rw [hconversion, deleteBackward_composing]
        exact ⟨ComposingText.deleteBackward_coherent h.coherent _,
          ComposingText.deleteBackward_shows h.coherent hend hvisible _⟩
      · rw [hconversion]
        exact ⟨h.coherent, hvisible⟩
    have hleft := hdeleted _ rfl
    split at haccept
    · cases haccept
      exact ⟨hfull, hleft.1, fun _ hsome => nomatch hsome⟩
    · cases haccept
      exact .of_typed hfull (insertStr_coherent hleft.1 hleft.2 _ _) rfl

end SessionState

/-! ### The handlers -/

def Leaves (invariant : SessionState → Prop) (result : KeyResult) : Prop :=
  ∀ response after, result = .ok (response, after) → invariant after

namespace Leaves
variable {invariant : SessionState → Prop}

theorem error (failure : Failure) : Leaves invariant (.error failure) :=
  fun _ _ h => nomatch h

theorem respond {next : SessionState} {consumed : Bool} {commit : Text} {reset : Bool}
    (h : invariant next) : Leaves invariant (respond next consumed commit reset) := by
  intro response after hresult
  cases hresult
  exact h

theorem requested {answers : Answers} {target : SessionState} {rich : Bool}
    {leftContext : Option Text} {next : SessionState → KeyResult} (h : target.Ready config)
    (hnext : ∀ after, after.Suggests config → Leaves invariant (next after)) :
    Leaves invariant
      (match requestCandidatesWithContext config answers target rich leftContext with
      | .error failure => .error failure
      | .ok after => next after) := by
  split
  · exact .error _
  · rename_i after hrequest
    exact hnext after (h.requested hrequest)

end Leaves

variable (services) in
theorem commitCandidate_suggests (h : session.Suggests config) (candidate : Session.Candidate)
    (mode : InputMode) :
    Leaves (Suggests config) (commitCandidate config services session candidate mode) := by
  unfold commitCandidate
  split
  · exact .error _
  · rename_i commit selected hselect
    obtain ⟨rfl, rfl⟩ := Prod.mk.inj (selectAndStageLearning_eq_ok hselect)
    have hafter : (afterSelection { session with
        conversion := session.conversion.selectCandidateValue config.tables candidate }
          mode).Suggests config := by
      have hfull := (selectCandidateValue_fullComposing session.conversion config.tables
        candidate).trans h.fullComposing
      have hcoherent := selectCandidateValue_coherent h.coherent candidate
      unfold afterSelection
      dsimp only
      split
      · exact .of_none hfull hcoherent rfl rfl
      · exact .of_none hfull hcoherent rfl rfl
    dsimp only
    split
    · exact .respond hafter
    · exact .requested hafter.ready fun after => .respond

variable (services) in
theorem selectCandidateWithRemainderMode_suggests (h : session.Suggests config) (index : Nat)
    (mode : InputMode) :
    Leaves (Suggests config)
      (selectCandidateWithRemainderMode config services session index mode) := by
  unfold selectCandidateWithRemainderMode
  split
  · exact .error _
  · refine commitCandidate_suggests services ?_ _ mode
    exact h.congr rfl rfl rfl rfl

variable (services) in
theorem forgetCandidate_suggests (h : session.Suggests config) (index : Nat) :
    Leaves (Suggests config) (forgetCandidate config services session index) := by
  unfold forgetCandidate
  split
  · exact .error _
  · split
    · exact .error _
    · exact .requested ⟨h.fullComposing, h.coherent, fun _ => h.held⟩ fun after => .respond

variable (services) in
theorem resetLearning_suggests (h : session.Suggests config) :
    Leaves (Suggests config) (resetLearning config services session) := by
  unfold resetLearning
  split
  · exact .error _
  · dsimp only
    split
    · exact .respond (h.congr rfl rfl rfl rfl)
    · exact .requested ⟨h.fullComposing, h.coherent, fun _ => h.held⟩ fun after => .respond

theorem selectTypoCorrection_suggests (h : session.Suggests config) (index : Nat) :
    Leaves (Suggests config) (selectTypoCorrection session index) := by
  unfold selectTypoCorrection
  split
  · exact .error _
  · intro response after hresult
    cases hresult
    exact reset_suggests h.fullComposing

variable (services) in
theorem enterUnicodeInput_suggests (h : session.Suggests config) :
    Leaves (Suggests config) (enterUnicodeInput config services session) := by
  have hidle : Leaves (Suggests config)
      (Engine.respond { session with inputMode := .unicode, unicodeInput := [] } true [] false) :=
    .respond (h.congr rfl rfl rfl rfl)
  have hreset {left : SessionState} {commit : Text} (hfull : left.conversion.fullComposing = none) :
      Leaves (Suggests config) (Engine.respond
        { left.reset with inputMode := .unicode, unicodeInput := [] } true commit false) :=
    .respond ((reset_suggests hfull).congr rfl rfl rfl rfl)
  unfold enterUnicodeInput
  dsimp only
  split
  · exact hidle
  · exact hidle
  · split
    · exact .error _
    · rename_i hlearn
      exact hreset (learnCurrentMarkedCandidate_fullComposing h.fullComposing hlearn)
  · split
    · exact .error _
    · rename_i hlearn
      exact hreset (learnCurrentMarkedCandidate_fullComposing h.fullComposing hlearn)
  · split
    · exact .error _
    · split
      · exact .error _
      · rename_i hselect
        obtain ⟨rfl, rfl⟩ := Prod.mk.inj (selectAndStageLearning_eq_ok hselect)
        exact hreset ((selectCandidateValue_fullComposing _ _ _).trans h.fullComposing)

theorem handleUnicodeInput_suggests (h : session.Suggests config) (event : KeyEvent) :
    Leaves (Suggests config) (handleUnicodeInput session event) := by
  have hreset : session.reset.Suggests config := reset_suggests h.fullComposing
  unfold handleUnicodeInput
  split
  · exact .respond (h.congr rfl rfl rfl rfl)
  · split
    · exact .respond hreset
    · exact .respond (h.congr rfl rfl rfl rfl)
  · exact .respond hreset
  · exact .respond hreset
  · exact .respond hreset
  · exact .respond h

/-! ### Typing and deleting -/

variable (services) in
theorem composeEvent_suggests (hfull : session.conversion.fullComposing = none)
    (hcoherent : session.composing.Coherent config.tables)
    (hvisible : ¬session.composing.HidesInput) (htyped : session.lastWasBackspace = false)
    (event : KeyEvent) (commit : Text) :
    Leaves (Suggests config) (composeEvent config services session event commit) := by
  unfold composeEvent
  have hready : Ready config { insertEvent config session event with inputMode := .composing } :=
    .of_typed ((insertEvent_fullComposing config session event).trans hfull)
      (insertEvent_coherent hcoherent hvisible event) htyped
  exact .requested hready fun after => .respond

theorem new_not_hidesInput : ¬ComposingText.HidesInput {} := fun h => h.2 rfl

variable (services) in
theorem handleText_suggests (h : session.Suggests config)
    (hvisible : ¬session.composing.HidesInput) (event : KeyEvent) :
    Leaves (Suggests config) (handleText config services session event) := by
  unfold handleText
  dsimp only
  split
  · split
    · refine composeEvent_suggests services ?_ ?_ ?_ rfl event _
      · exact h.fullComposing
      · exact h.coherent
      · exact hvisible
    · refine composeEvent_suggests services ?_ ?_ ?_ rfl event _
      · exact h.fullComposing
      · exact ComposingText.new_wellFormed.coherent
      · exact new_not_hidesInput
  · exact .respond h

variable (services) in
theorem handleInput_suggests (h : session.Suggests config)
    (hvisible : ¬session.composing.HidesInput) (event : KeyEvent) :
    Leaves (Suggests config) (handleInput config services session event) := by
  unfold handleInput
  split
  · exact .respond h
  · split
    · split
      · refine composeEvent_suggests services ?_ ?_ ?_ rfl event _
        · exact h.fullComposing
        · exact ComposingText.new_wellFormed.coherent
        · exact new_not_hidesInput
      · exact selectCandidateWithRemainderMode_suggests services h _ _
      · exact handleText_suggests services h hvisible event
    · exact handleText_suggests services h hvisible event

theorem suggestCorrection_suggests (h : session.Suggests config) :
    (suggestCorrection config session).Suggests config := by
  unfold suggestCorrection
  split
  · exact h
  · rename_i display target hkept
    split
    · rename_i correction hedit
      refine ⟨h.fullComposing, h.coherent, h.held, fun prediction hsome _ => ?_⟩
      obtain rfl := Option.some.inj hsome
      exact ⟨display, target, hkept, hedit⟩
    · rename_i hedit
      refine ⟨h.fullComposing, h.coherent, (fun hsome => nomatch hsome),
        fun prediction hsome hcandidate => ?_⟩
      obtain ⟨display', target', hkept', hedit'⟩ := h.offered prediction hsome hcandidate
      obtain ⟨rfl, rfl⟩ := Prod.mk.inj (Option.some.inj (hkept.symm.trans hkept'))
      rw [hedit] at hedit'
      cases hedit'

theorem deleteLast_end (h : session.composing.Coherent config.tables) :
    (deleteLast config session).1.composing.Coherent config.tables ∧
      (deleteLast config session).1.composing.isAtEnd = true := by
  show (ConversionSession.deleteBackward _ _ _).composing.Coherent _ ∧
    (ConversionSession.deleteBackward _ _ _).composing.isAtEnd = true
  rw [deleteBackward_composing]
  generalize hmoved : (session.conversion.moveCursor
    ((session.composing.surface.length : Int) - session.composing.cursor)).composing = moved
  have hcoherent : moved.Coherent config.tables := hmoved ▸ ⟨h.surface, h.quiet⟩
  have hend : moved.cursor = moved.surface.length := by
    rw [← hmoved]
    show Int.toNat ((session.composing.cursor : Int) + max (-(session.composing.cursor : Int))
      (min ((session.composing.surface.length : Int) - session.composing.cursor)
        (session.composing.surface.length - session.composing.cursor : Nat))) =
          session.composing.surface.length
    omega
  refine ⟨ComposingText.deleteBackward_coherent hcoherent 1, decide_eq_true ?_⟩
  exact (ComposingText.deleteBackward_end (hcoherent.wellFormed (decide_eq_true hend)) hend 1).2

variable (services) in
theorem handleBackspace_suggests (h : session.Suggests config) :
    Leaves (Suggests config) (handleBackspace config services session) := by
  have hfull : (deleteLast config session).1.conversion.fullComposing = none :=
    (deleteBackward_fullComposing _ _ _).trans h.fullComposing
  obtain ⟨hcoherent, hend⟩ := deleteLast_end h.coherent
  unfold handleBackspace
  dsimp only
  split
  · exact .respond h
  · split
    · exact .respond (reset_suggests hfull)
    · have hready : Ready config
          ({ (deleteLast config session).1 with inputMode :=
            .composing } : SessionState).clearPresentation :=
        ⟨hfull, hcoherent, fun _ _ => ⟨rfl, hend⟩⟩
      split
      · exact .error _
      · rename_i after hrequest
        have hafter := hready.requested hrequest
        have hanswered := requestCandidates_answered hrequest hfull
        have hlive : Suggests config { after with liveCandidate := none } :=
          hafter.congr rfl rfl rfl rfl
        split
        · exact .error _
        · rename_i corrected hcorrected
          refine .respond (suggestCorrection_suggests ?_)
          split at hcorrected
          · rename_i hcorrects
            -- no correction was kept before, so what is predicted is no correction
            obtain ⟨correction, rfl⟩ := updateBackspaceCorrection_eq_ok hcorrected
            have hnone : after.backspaceCorrection = none := by
              rw [requestCandidates_backspaceCorrection hrequest]
              exact (if_pos rfl).trans
                (Option.isNone_iff_eq_none.mp (Bool.and_eq_true_iff.mp hcorrects).2)
            refine ⟨hafter.fullComposing, hafter.coherent, fun _ => ?_,
              fun prediction hsome hcandidate => ?_⟩
            · refine ⟨hanswered.segmentSurfaceCount, ?_⟩
              show after.composing.isAtEnd = true
              rw [hanswered.composing]
              exact hend
            · obtain ⟨display, target, hkept, -⟩ := hafter.offered prediction hsome hcandidate
              rw [hnone] at hkept
              cases hkept
          · cases hcorrected
            exact hlive

/-! ### The other keys -/

theorem handleEscape_suggests (h : session.Suggests config) :
    Leaves (Suggests config) (handleEscape config session) := by
  unfold handleEscape
  split
  · exact .respond h
  · exact .respond h
  · exact .respond (reset_suggests h.fullComposing)
  · exact .respond (h.congr rfl rfl rfl rfl)
  · exact .respond (h.congr rfl rfl rfl rfl)

variable (services) in
theorem handleEnter_suggests (h : session.Suggests config) :
    Leaves (Suggests config) (handleEnter config services session) := by
  unfold handleEnter
  split
  · exact .respond h
  · exact selectCandidateWithRemainderMode_suggests services h _ _
  · dsimp only
    split
    · exact .error _
    · rename_i hlearn
      exact .respond (reset_suggests
        (learnCurrentMarkedCandidate_fullComposing h.fullComposing hlearn))

variable (services) in
theorem openSelection_suggests (h : session.Ready config) :
    Leaves (Suggests config) (openSelection config services session) := by
  unfold openSelection
  exact .requested h fun after hafter => .respond (hafter.congr rfl rfl rfl rfl)

theorem separated_ready (hs : config.tables.Silent) (h : session.Suggests config)
    (hvisible : ¬session.composing.HidesInput) (mode : InputMode) :
    Ready config { session.separated config with inputMode := mode } :=
  .of_typed ((insertCompositionSeparator_fullComposing _ _ _).trans h.fullComposing)
    (separated_coherent hs h.coherent hvisible) rfl

theorem selectNext_suggests (h : session.Suggests config) : session.selectNext.Suggests config := by
  unfold SessionState.selectNext
  dsimp only
  split
  · exact h.congr rfl rfl rfl rfl
  · exact h

variable (services) in
theorem handleSpace_suggests (hs : config.tables.Silent) (h : session.Suggests config)
    (hvisible : ¬session.composing.HidesInput) (event : KeyEvent) :
    Leaves (Suggests config) (handleSpace config services session event) := by
  unfold handleSpace
  split
  · exact .respond h
  · split
    · have hspace :
          (session.composing.insertStr config.unicode config.tables [' '] .direct).Coherent
          config.tables := insertStr_coherent h.coherent hvisible _ _
      exact .respond (.of_none h.fullComposing hspace rfl rfl)
    · split
      · exact openSelection_suggests services (separated_ready hs h hvisible _)
      · exact .requested (separated_ready hs h hvisible _) fun after hafter =>
          .respond (hafter.congr rfl rfl rfl rfl)
  · exact openSelection_suggests services h.ready
  · split
    · exact .respond h
    · split
      · exact .respond (h.congr rfl rfl rfl rfl)
      · exact .respond (selectNext_suggests h)
  · exact .respond h

variable (services) in
theorem handleDown_suggests (hs : config.tables.Silent) (h : session.Suggests config)
    (hvisible : ¬session.composing.HidesInput) :
    Leaves (Suggests config) (handleDown config services session) := by
  unfold handleDown
  split
  · exact openSelection_suggests services (separated_ready hs h hvisible _)
  · exact openSelection_suggests services (separated_ready hs h hvisible _)
  · exact .respond (selectNext_suggests h)
  · exact .respond h
  · exact .respond h

theorem handleUp_suggests (h : session.Suggests config) :
    Leaves (Suggests config) (handleUp config session) := by
  unfold handleUp
  split
  · split
    · exact .respond (h.congr rfl rfl rfl rfl)
    · exact .respond (h.congr rfl rfl rfl rfl)
  · exact .respond h

/-- The cursor of a segment stands anywhere in the same text. -/
theorem segmented_ready (h : session.Suggests config) (right : Bool) :
    (session.segmented config right).Ready config := by
  have hcursor : (cursorAfterSelection config session).fullComposing = none ∧
      (cursorAfterSelection config session).composing.Coherent config.tables := by
    unfold cursorAfterSelection
    split
    · exact ⟨h.fullComposing, h.coherent⟩
    · exact ⟨h.fullComposing, h.coherent.surface, h.coherent.quiet⟩
  exact .of_typed hcursor.1 ⟨hcursor.2.surface, hcursor.2.quiet⟩ rfl

variable (services) in
theorem handleArrow_suggests (h : session.Suggests config) (event : KeyEvent) (right : Bool) :
    Leaves (Suggests config) (handleArrow config services session event right) := by
  unfold handleArrow
  split
  · exact .respond h
  · split
    · exact .requested (segmented_ready h right) fun after hafter =>
        .respond (hafter.congr rfl rfl rfl rfl)
    · split
      · exact selectCandidateWithRemainderMode_suggests services h _ _
      · exact .respond h

variable (services) in
theorem handleTab_suggests (h : session.Suggests config)
    (hvisible : ¬session.composing.HidesInput) :
    Leaves (Suggests config) (handleTab config services session) := by
  unfold handleTab
  split
  · exact .respond h
  · split
    · exact .respond h
    · rename_i prediction hprediction
      split
      · exact .respond (h.congr rfl rfl rfl rfl)
      · rename_i accepted haccept
        have hshown : session.prediction = some prediction := by
          split at hprediction
          · exact hprediction
          · cases hprediction
        exact .requested (acceptPrediction_ready h hvisible hshown haccept) fun after => .respond

variable (services) in
theorem handleRepresentation_suggests (h : session.Suggests config) (index : Fin 5) :
    Leaves (Suggests config) (handleRepresentation config services session index) := by
  unfold handleRepresentation
  split
  · exact .respond h
  · dsimp only
    split
    · exact .respond h
    · exact commitCandidate_suggests services h _ _

variable (services) in
theorem handleEisu_suggests (h : session.Suggests config) :
    Leaves (Suggests config) (handleEisu config services session) := by
  unfold handleEisu
  split
  · split
    · exact .error _
    · rename_i hselect
      intro response after hresult
      cases hresult
      have hleft := selectCandidateWithRemainderMode_suggests services h _ _ _ _ hselect
      exact hleft.congr rfl rfl rfl rfl
  · exact .respond (h.congr rfl rfl rfl rfl)

variable (services) in
theorem handleForget_suggests (h : session.Suggests config) :
    Leaves (Suggests config) (handleForget config services session) := by
  unfold handleForget
  split
  · exact forgetCandidate_suggests services h _
  · exact .respond h

variable (services) in
theorem handleAction_suggests (hs : config.tables.Silent) (h : session.Suggests config)
    (hvisible : ¬session.composing.HidesInput) (event : KeyEvent) :
    Leaves (Suggests config) (handleAction config services session event) := by
  unfold handleAction
  split
  · exact enterUnicodeInput_suggests services h
  · exact handleEisu_suggests services h
  · exact .respond (h.congr rfl rfl rfl rfl)
  · exact handleInput_suggests services h hvisible event
  · exact handleBackspace_suggests services h
  · exact handleEscape_suggests h
  · exact handleEnter_suggests services h
  · exact handleSpace_suggests services hs h hvisible event
  · exact handleDown_suggests services hs h hvisible
  · exact handleUp_suggests h
  · exact handleArrow_suggests services h event false
  · exact handleArrow_suggests services h event true
  · exact handleTab_suggests services h hvisible
  · exact handleRepresentation_suggests services h 0
  · exact handleRepresentation_suggests services h 1
  · exact handleRepresentation_suggests services h 2
  · exact handleRepresentation_suggests services h 3
  · exact handleRepresentation_suggests services h 4
  · exact handleForget_suggests services h
  all_goals exact .respond h

variable (services) in
theorem handleKey_suggests (hs : config.tables.Silent) (h : session.Suggests config)
    (hvisible : ¬session.composing.HidesInput) (event : KeyEvent) :
    Leaves (Suggests config) (handleKey config services session event) := by
  have hcleared : Suggests config { session with typoCorrections := [] } := h.congr rfl rfl rfl rfl
  unfold handleKey
  dsimp only
  split
  · exact .respond hcleared
  · split
    · exact handleUnicodeInput_suggests hcleared _
    · exact handleAction_suggests services hs hcleared hvisible _

/-! ### The messages -/

variable (services) in
theorem handleRequest_suggests (hs : config.tables.Silent) (h : session.Suggests config)
    (hvisible : ¬session.composing.HidesInput) (request : Payload) :
    Leaves (Suggests config) (handleRequest config services session request) := by
  have hreset : session.reset.Suggests config := reset_suggests h.fullComposing
  unfold handleRequest
  split
  · intro response after hresult
    cases hresult
    exact hreset
  · exact handleKey_suggests services hs h hvisible _
  · exact selectCandidateWithRemainderMode_suggests services h _ _
  · exact selectTypoCorrection_suggests h _
  · exact forgetCandidate_suggests services h _
  · exact resetLearning_suggests services h
  · intro response after hresult
    cases hresult
    exact hreset
  · exact .error _

theorem answerRequest_suggests {left : SessionState} {request : Payload}
    (hs : config.tables.Silent) (h : session.Suggests config)
    (hvisible : ¬session.composing.HidesInput)
    (hleft : (answerRequest config services session request).2 = some left) :
    left.Suggests config := by
  unfold answerRequest at hleft
  split at hleft
  · cases hleft
    exact reset_suggests h.fullComposing
  · rename_i updated hupdated
    obtain ⟨surrounding, rfl⟩ := updateSurrounding_eq_ok hupdated
    split at hleft
    · cases hleft
      exact reset_suggests h.fullComposing
    · rename_i response after hrequest
      cases hleft
      have hframed : Suggests config { session with surrounding } := h.congr rfl rfl rfl rfl
      exact handleRequest_suggests services hs hframed hvisible request response _ hrequest

theorem pageCandidates_suggests {paged : SessionState} {page : PageCandidates}
    (h : session.Suggests config) (hpage : pageCandidates session page = some paged) :
    paged.Suggests config := by
  unfold pageCandidates at hpage
  dsimp only at hpage
  split at hpage
  · cases hpage
  · split at hpage
    · cases hpage
      exact h
    · split at hpage
      · cases hpage
        exact h.congr rfl rfl rfl rfl
      · cases hpage
        exact h.congr rfl rfl rfl rfl
      · cases hpage

theorem handleSessionRequest_suggests {left : SessionState} {requestId : Nat} {request : Payload}
    (hs : config.tables.Silent) (h : session.Suggests config)
    (hvisible : ¬session.composing.HidesInput)
    (hleft : (handleSessionRequest config services session requestId request).2 = some left) :
    left.Suggests config := by
  have hnumbered : Suggests config { session with lastRequestId := requestId } :=
    h.congr rfl rfl rfl rfl
  unfold handleSessionRequest at hleft
  split at hleft
  · cases hleft
    exact h
  · dsimp only at hleft
    split at hleft
    · split at hleft
      · cases hleft
      · cases hleft
    · split at hleft
      · cases hleft
        exact reset_suggests h.fullComposing
      · cases hleft
        exact h.congr rfl rfl rfl rfl
    · split at hleft
      · cases hleft
        exact hnumbered
      · rename_i paged hpaged
        cases hleft
        exact (pageCandidates_suggests hnumbered hpaged).congr rfl rfl rfl rfl
    · exact answerRequest_suggests hs hnumbered hvisible hleft

theorem handleMessage_suggests {previous : Option SessionState} {requestId : Nat}
    {payload : Option Payload} {left : SessionState} (hs : config.tables.Silent)
    (hprevious : ∀ before, previous = some before → before.Suggests config)
    (hvisible : ∀ before, previous = some before → ¬before.composing.HidesInput)
    (hleft : (handleMessage config services previous requestId payload).2 = some left) :
    left.Suggests config := by
  unfold handleMessage at hleft
  split at hleft
  · exact hprevious left hleft
  · split at hleft
    · exact hprevious left hleft
    · rename_i session hstart
      cases hleft
      obtain ⟨-, inputStyle, surrounding, language, rfl⟩ := startSession_eq_ok hstart
      exact .of_none rfl ComposingText.new_wellFormed.coherent rfl rfl
  · split at hleft
    · exact hprevious left hleft
    · split at hleft
      · cases hleft
      · rename_i session
        exact handleSessionRequest_suggests hs (hprevious session rfl) (hvisible session rfl) hleft

/-- The message is not one to a session whose text shows nothing while it holds input. -/
def ShowsInput (_ : Services) (previous : Option SessionState) (_ : Option Payload) : Prop :=
  ∀ before, previous = some before → ¬before.composing.HidesInput

theorem Reached.suggests {sessions : Sessions} (hs : config.tables.Silent)
    (h : Reached config ShowsInput sessions) (sessionId : String) (session : SessionState)
    (hsession : sessions sessionId = some session) : session.Suggests config :=
  h.induction (fun _ _ _ _ _ hprevious hvisible hleft =>
    handleMessage_suggests hs hprevious hvisible hleft) sessionId session hsession

end BeanKey.Engine
