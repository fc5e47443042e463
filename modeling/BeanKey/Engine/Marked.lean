import BeanKey.Engine.Selection

/-! The marked text of a composition. A preview is shown by its index in the list of
candidates, and the index outlives the list: a segment narrows what the candidates are for,
and a revealed candidate moves them. -/
namespace BeanKey.Engine
open Session Input Protocol SessionState
variable {config : EngineConfig} {services : Services} {action : Option UserAction}

namespace SessionState

/-- A candidate to commit as the whole text: it shows the text as it is typed, or nothing
remains after it. -/
def Covers (config : EngineConfig) (session : SessionState) (candidate : Session.Candidate) :
    Prop :=
  candidate.text = session.composing.surfaceText ∨ session.remaining config candidate = []

/-- The marked text is the whole text, or that of a candidate after which nothing remains. -/
structure MarksWhole (config : EngineConfig) (session : SessionState) : Prop where
  marked : session.inputMode = .composing ∨ session.inputMode = .previewing →
    session.currentMarkedText = session.composing.surfaceText ∨
      ∃ candidate, (candidate ∈ session.displayCandidates ∨ session.liveCandidate =
        some candidate) ∧
        candidate.text = session.currentMarkedText ∧ session.remaining config candidate = []
  preview : session.inputMode = .previewing → session.PreviewWhole config

/-- Enter, a text typed over the preview and the request to commit all commit the marked
text. -/
structure CommitsMarked (config : EngineConfig) (session : SessionState) : Prop where
  enter : ∀ services event result, event.action = .enter →
    session.inputMode = .composing ∨ session.inputMode = .previewing →
    handleKey config services session event = .ok result →
    result.1.commit = session.currentMarkedText ∧ result.2.composing.isEmpty = true
  typed : ∀ services event result, event.action = .input → session.inputMode = .previewing →
    handleKey config services session event = .ok result →
    result.1.commit = session.currentMarkedText ∨
      result.1.commit = [] ∧ result.2.composing = session.composing
  commitComposition : ∀ services result,
    handleRequest config services session .commitComposition = .ok result →
    result.1.commit = session.currentMarkedText ∧ result.2.composing.isEmpty = true

/-- In the list as it was answered, without what was revealed above it, the preview index stands for
a candidate after which nothing remains. -/
def AnswerWhole (config : EngineConfig) (session : SessionState) : Prop :=
  ∀ index, session.previewCandidateIndex = some index →
    ∃ candidate,
      (session.displayCandidates.drop session.additionalCandidateCount)[index]? = some candidate ∧
      session.remaining config candidate = []

/-- What every key keeps of a marked text. -/
structure Marks (config : EngineConfig) (session : SessionState) : Prop where
  live : ∀ live, session.liveCandidate = some live → session.Covers config live
  answer : session.ConvertsWhole → session.AnswerWhole config
  preview : session.inputMode = .previewing → session.PreviewWhole config
  whole : session.inputMode = .previewing → session.ConvertsWhole

end SessionState

/-- A step that shows no candidate for a part of the text as the marked text. -/
structure KeepsWhole (config : EngineConfig) (services : Services) (previous : Option SessionState)
    (payload : Option Payload) : Prop where
  /-- Escape goes back to the preview while no segment of the text is selected and no candidate was
  revealed since the index was set, or the one revealed in its place stands for the whole text
  too. -/
  escape : ∀ before, previous = some before → payload.bind payloadAction = some .escape →
    before.inputMode = .selecting → config.liveConversion = false →
    before.ConvertsWhole ∧ (before.additionalCandidateCount ≠ 0 → before.PreviewWhole config)
  /-- Space does not ask for the preview of a segment. -/
  space : ∀ before, previous = some before →
    SpacePreviews config (payload.bind payloadAction) before → before.ConvertsWhole
  /-- The first result, where it is shown as the live preview, is one for the whole text. -/
  live : ∀ request result evaluated live,
    services.candidates.convert request = .ok (result, evaluated) →
    liveCandidateOf config request.session result = some live → request.session.Covers config live

namespace SessionState

/-! ### One message -/

theorem Covers.congr {before after : SessionState} {candidate : Session.Candidate}
    (hcomposing : after.composing = before.composing) (h : before.Covers config candidate) :
    after.Covers config candidate := by
  unfold Covers remaining ConversionSession.remainingAfterCandidate at h ⊢
  rwa [show after.conversion.composing = before.conversion.composing from hcomposing, hcomposing]

theorem SameLists.composing {before after : SessionState} (h : SameLists before after) :
    after.composing = before.composing := congrArg ConversionSession.composing h.conversion

theorem SameLists.live {before after : SessionState} (hsame : SameLists before after)
    (h : ∀ live, before.liveCandidate = some live → before.Covers config live) :
    ∀ live, after.liveCandidate = some live → after.Covers config live := by
  intro live hlive
  cases hsame.liveCandidate with
  | inl hkept => exact (h live (hkept ▸ hlive)).congr hsame.composing
  | inr hnone => rw [hnone] at hlive; cases hlive

theorem SameLists.previewWhole {before after : SessionState} (hsame : SameLists before after)
    (h : before.PreviewWhole config) : after.PreviewWhole config := by
  intro index hindex
  rw [hsame.previewCandidateIndex] at hindex
  obtain ⟨candidate, hcandidate, hremaining⟩ := h index hindex
  refine ⟨candidate, hsame.displayCandidates ▸ hcandidate, ?_⟩
  rw [← hremaining, remaining, hsame.conversion]

theorem SameLists.answerWhole {before after : SessionState} (hsame : SameLists before after)
    (h : before.AnswerWhole config) : after.AnswerWhole config := by
  intro index hindex
  rw [hsame.previewCandidateIndex] at hindex
  obtain ⟨candidate, hcandidate, hremaining⟩ := h index hindex
  refine ⟨candidate, ?_, ?_⟩
  · rw [hsame.displayCandidates, hsame.additionalCandidateCount]
    exact hcandidate
  · rw [← hremaining, remaining, hsame.conversion]

theorem AnswerWhole.preview {session : SessionState} (h : session.AnswerWhole config)
    (hnone : session.additionalCandidateCount = 0) : session.PreviewWhole config := by
  unfold AnswerWhole at h
  rwa [hnone, List.drop_zero] at h

theorem PreviewWhole.answer {session : SessionState} (h : session.PreviewWhole config)
    (hnone : session.additionalCandidateCount = 0) : session.AnswerWhole config := by
  unfold AnswerWhole
  rwa [hnone, List.drop_zero]

/-- What is revealed stands above the list as it was. -/
theorem revealAdditionalCandidate_answerWhole {before : SessionState}
    (h : before.AnswerWhole config) :
    (revealAdditionalCandidate config before).AnswerWhole config := by
  intro index hindex
  obtain ⟨candidate, hcandidate, hremaining⟩ := h index hindex
  refine ⟨candidate, ?_, hremaining⟩
  rw [← hcandidate]
  simp only [revealAdditionalCandidate, withRemainders]
  refine congrArg (·[index]?) (List.drop_left' ?_)
  rw [List.length_map, List.length_drop]
  omega

theorem SameLists.convertsWhole_iff {before after : SessionState} (hsame : SameLists before after) :
    after.ConvertsWhole ↔ before.ConvertsWhole := by
  unfold ConvertsWhole
  rw [hsame.segmentSurfaceCount, hsame.composing]

theorem Answered.convertsWhole_iff {before after : SessionState}
    (h : Answered config before after) :
    after.ConvertsWhole ↔ before.ConvertsWhole := by
  unfold ConvertsWhole
  rw [h.segmentSurfaceCount, h.composing]

theorem finished_liveCandidate (session : SessionState) :
    (session.finished config).liveCandidate = session.liveCandidate := by
  unfold finished
  split <;> rfl

theorem requestCandidates_live {answers : Answers} {session after : SessionState} {rich : Bool}
    {leftContext : Option Text}
    (h : requestCandidatesWithContext config answers session rich leftContext = .ok after)
    {live : Session.Candidate} (hlive : after.liveCandidate = some live) :
    session.segmentSurfaceCount = none ∧ ∃ result evaluated,
      answers.convert ⟨session.prepared config, rich, leftContext⟩ = .ok (result, evaluated) ∧
      liveCandidateOf config (session.prepared config) result = some live := by
  obtain ⟨result, evaluated, hconvert, rfl⟩ := requestCandidates_eq_ok h
  rw [finished_liveCandidate] at hlive
  have hof : liveCandidateOf config (session.prepared config) result = some live := hlive
  refine ⟨?_, result, evaluated, hconvert, hof⟩
  unfold liveCandidateOf at hof
  split at hof
  · rename_i hcondition
    exact (prepared_segmentSurfaceCount session).symm.trans hcondition.2.2.2.1
  · cases hof

theorem revealAdditionalCandidate_live {before : SessionState} (h : before.Marks config) :
    ∀ live, (revealAdditionalCandidate config before).liveCandidate = some live →
      (revealAdditionalCandidate config before).Covers config live :=
  fun live hlive => @Covers.congr _ before _ live rfl (h.live live hlive)

theorem Cleared.marks {session : SessionState} (h : session.Cleared) : session.Marks config where
  live live hlive := by rw [h.liveCandidate] at hlive; cases hlive
  answer _ index hindex := by rw [h.previewCandidateIndex] at hindex; cases hindex
  preview hmode := absurd hmode h.inputMode
  whole hmode := absurd hmode h.inputMode

/-- What a message leaves marked, where its step keeps the preview one of the whole text. -/
theorem Effect.marks {before after : SessionState}
    (h : Effect config services action before after) (hbefore : before.Marks config)
    (hescape : action = some .escape → before.inputMode = .selecting →
      config.liveConversion = false →
      before.ConvertsWhole ∧ (before.additionalCandidateCount ≠ 0 → before.PreviewWhole config))
    (hspace : SpacePreviews config action before → before.ConvertsWhole)
    (hlive : ∀ request result evaluated live,
      services.candidates.convert request = .ok (result, evaluated) →
      liveCandidateOf config request.session result = some live →
      request.session.Covers config live) :
    after.Marks config := by
  cases h with
  | kept hsame hmode hselects =>
    have hpreview : after.inputMode = .previewing →
        before.PreviewWhole config ∧ before.ConvertsWhole := by
      intro hpreviewing
      generalize hbeforeMode : before.inputMode = mode at hmode
      rw [hpreviewing] at hmode
      cases hmode with
      | same => exact ⟨hbefore.preview hbeforeMode, hbefore.whole hbeforeMode⟩
      | closeSelection haction hlive =>
        obtain ⟨hconverts, hrevealed⟩ := hescape haction hbeforeMode hlive
        by_cases hnone : before.additionalCandidateCount = 0
        · exact ⟨(hbefore.answer hconverts).preview hnone, hconverts⟩
        · exact ⟨hrevealed hnone, hconverts⟩
    exact ⟨hsame.live hbefore.live,
      fun hconverts => hsame.answerWhole (hbefore.answer (hsame.convertsWhole_iff.mp hconverts)),
      fun hmode => hsame.previewWhole (hpreview hmode).1,
      fun hmode => hsame.convertsWhole_iff.mpr (hpreview hmode).2⟩
  | cleared hcleared => exact hcleared.marks
  | @requested target middle _ rich leftContext hrequest hrequested =>
    have hanswered := hrequested.answered
    have hmiddle : ∀ live, middle.liveCandidate = some live → middle.Covers config live := by
      intro live hsome
      obtain ⟨hsegment, result, evaluated, hconvert, hof⟩ := requestCandidates_live hrequest hsome
      have hcovers := hlive _ result evaluated live hconvert hof
      refine hcovers.congr ?_
      show middle.composing = (target.prepared config).composing
      rw [prepared_composing config (.inl hsegment)]
      exact hanswered.composing
    have htarget : after.inputMode = .previewing → target.ConvertsWhole := by
      intro hpreviewing
      cases hrequested.previews hpreviewing with
      | inl hwhole => exact hwhole
      | inr hfrom =>
        refine hfrom.2 ?_
        cases hfrom.1 with
        | inl hmode => exact hbefore.whole hmode
        | inr hpreviews => exact hspace hpreviews
    have hsame := hrequested.same
    refine ⟨hsame.live hmiddle, fun hconverts => ?_,
      fun hmode => hsame.previewWhole (hanswered.preview (htarget hmode)),
      fun hmode => hsame.convertsWhole_iff.mpr (hanswered.convertsWhole_iff.mpr (htarget hmode))⟩
    have hwhole := hanswered.convertsWhole_iff.mp (hsame.convertsWhole_iff.mp hconverts)
    exact hsame.answerWhole ((hanswered.preview hwhole).answer hanswered.additionalCandidateCount)
  | revealed hmode hsame hselecting hzero =>
    refine ⟨hsame.live (revealAdditionalCandidate_live hbefore), fun hconverts => ?_, ?_, ?_⟩
    · have hwhole : before.ConvertsWhole := hsame.convertsWhole_iff.mp hconverts
      exact hsame.answerWhole (revealAdditionalCandidate_answerWhole (hbefore.answer hwhole))
    · exact fun hpreviewing => InputMode.noConfusion (hselecting.symm.trans hpreviewing)
    · exact fun hpreviewing => InputMode.noConfusion (hselecting.symm.trans hpreviewing)

end SessionState

theorem handleMessage_marks {previous : Option SessionState} {requestId : Nat}
    {payload : Option Payload} {left : SessionState}
    (hprevious : ∀ before, previous = some before → before.InStep config ∧ before.Marks config)
    (hkeeps : KeepsWhole config services previous payload)
    (h : (handleMessage config services previous requestId payload).2 = some left) :
    left.InStep config ∧ left.Marks config := by
  refine ⟨handleMessage_inStep (fun before hbefore => (hprevious before hbefore).1) h, ?_⟩
  cases handleMessage_effect (fun before hbefore => (hprevious before hbefore).1) h with
  | inl hcleared => exact hcleared.marks
  | inr hbefore =>
    obtain ⟨before, hsome, heffect⟩ := hbefore
    exact heffect.marks (hprevious before hsome).2 (hkeeps.escape before hsome)
      (hkeeps.space before hsome) hkeeps.live

/-! ### What is committed -/

namespace SessionState

theorem currentMarkedText_composing {session : SessionState}
    (hmode : session.inputMode = .composing) :
    session.currentMarkedText =
      session.liveCandidate.elim session.composing.surfaceText Session.Candidate.text := by
  simp [currentMarkedText, hmode]

theorem currentMarkedText_previewing {session : SessionState}
    (hmode : session.inputMode = .previewing) :
    session.currentMarkedText =
      (session.previewCandidateIndex.bind (session.displayCandidates[·]?)).elim
        session.composing.surfaceText Session.Candidate.text := by
  unfold currentMarkedText
  rw [hmode]
  dsimp only
  cases session.previewCandidateIndex.bind (session.displayCandidates[·]?) <;> rfl

theorem Marks.marksWhole {session : SessionState} (h : session.Marks config) :
    session.MarksWhole config := by
  refine ⟨fun hmode => ?_, h.preview⟩
  cases hmode with
  | inl hcomposing =>
    rw [currentMarkedText_composing hcomposing]
    cases hlive : session.liveCandidate with
    | none => exact .inl rfl
    | some live =>
      cases h.live live hlive with
      | inl htext => exact .inl htext
      | inr hremaining => exact .inr ⟨live, .inr rfl, rfl, hremaining⟩
  | inr hpreviewing =>
    rw [currentMarkedText_previewing hpreviewing]
    cases hindex : session.previewCandidateIndex with
    | none => exact .inl rfl
    | some index =>
      obtain ⟨candidate, hcandidate, hremaining⟩ := h.preview hpreviewing index hindex
      refine .inr ⟨candidate, .inl (List.mem_of_getElem? hcandidate), ?_, hremaining⟩
      simp [hcandidate]

theorem handleEnter_commit {session : SessionState} {result : StateResponse × SessionState}
    (hmode : session.inputMode = .composing ∨ session.inputMode = .previewing)
    (h : handleEnter config services session = .ok result) :
    result.1.commit = session.currentMarkedText ∧ result.2.composing.isEmpty = true := by
  unfold handleEnter at h
  rcases hmode with hmode | hmode <;>
  · rw [hmode] at h
    dsimp only at h
    split at h
    · cases h
    · cases h
      exact ⟨rfl, rfl⟩

theorem handleText_commit {session : SessionState} {event : KeyEvent}
    {result : StateResponse × SessionState} (hmode : session.inputMode = .previewing)
    (h : handleText config services session event = .ok result) :
    result.1.commit = session.currentMarkedText ∨
      result.1.commit = [] ∧ result.2.composing = session.composing := by
  unfold handleText at h
  split at h
  · have hcommit : committedByTyping session = session.currentMarkedText := if_pos (.inl hmode)
    rw [hcommit] at h
    unfold composeEvent at h
    dsimp only at h
    split at h
    · cases h
    · cases h
      exact .inl rfl
  · cases h
    exact .inr ⟨rfl, rfl⟩

theorem handleKey_of_mode {session : SessionState} (event : KeyEvent)
    (hmode : session.inputMode = .composing ∨ session.inputMode = .previewing) :
    handleKey config services session event =
      handleAction config services { session with typoCorrections := [] }
        (normalizeInputEvent event config.inputBehavior) := by
  have hnone : ¬session.inputMode = .none := by
    rcases hmode with hmode | hmode <;> rw [hmode] <;> exact InputMode.noConfusion
  have hunicode : ¬session.inputMode = .unicode := by
    rcases hmode with hmode | hmode <;> rw [hmode] <;> exact InputMode.noConfusion
  simp [handleKey, directInput, hnone, hunicode]

theorem commitsMarked (config : EngineConfig) (session : SessionState) :
    session.CommitsMarked config where
  enter services event result haction hmode h := by
    rw [handleKey_of_mode event hmode] at h
    unfold handleAction at h
    rw [normalizeInputEvent_action, haction] at h
    exact @handleEnter_commit _ _ { session with typoCorrections := [] } _ hmode h
  typed services event result haction hmode h := by
    rw [handleKey_of_mode event (.inr hmode)] at h
    unfold handleAction at h
    rw [normalizeInputEvent_action, haction] at h
    unfold handleInput at h
    rw [if_neg (fun hcondition => InputMode.noConfusion (hmode.symm.trans hcondition.1)),
      if_neg (fun hselecting => InputMode.noConfusion (hmode.symm.trans hselecting))] at h
    exact @handleText_commit _ _ { session with typoCorrections := [] } _ _ hmode h
  commitComposition services result h := by
    cases h
    exact ⟨rfl, rfl⟩

end SessionState

/-- Where every step keeps the preview one of the whole text, the marked text of every
reachable session stands for the whole text, and the keys that commit it discard nothing. -/
theorem marked_text_whole (config : EngineConfig) (sessions : Sessions)
    (h : Reached config (KeepsWhole config) sessions) (sessionId : String) (session : SessionState)
    (hsession : sessions sessionId = some session) :
    session.MarksWhole config ∧ session.CommitsMarked config := by
  have hmarks := h.induction (fun services previous requestId payload left hprevious hkeeps hleft =>
    handleMessage_marks hprevious hkeeps hleft) sessionId session hsession
  exact ⟨hmarks.2.marksWhole, commitsMarked config session⟩

/-- Without live conversion a key other than Escape and Space keeps what is marked. -/
theorem keepsWhole_of_payload (hlive : config.liveConversion = false)
    (previous : Option SessionState) {payload : Payload}
    (hescape : payloadAction payload ≠ some .escape)
    (hspace : payloadAction payload ≠ some .space) :
    KeepsWhole config services previous (some payload) where
  escape _ _ haction := absurd haction hescape
  space _ _ hpreviews := absurd hpreviews.1 hspace
  live _ _ _ _ _ hof := by simp [liveCandidateOf, hlive] at hof

theorem runMessages_reached {allowed : Services → Option SessionState → Option Payload → Prop}
    {sessionId : String} (payloads : List Payload) (requestId : Nat) {sessions : Sessions}
    (hallowed : ∀ previous, ∀ payload ∈ payloads, allowed services previous (some payload))
    (h : Reached config allowed sessions) :
    Reached config allowed (runMessages config services sessionId requestId payloads sessions) := by
  induction payloads generalizing requestId sessions with
  | nil => exact h
  | cons payload payloads ih =>
    have hfirst := hallowed (sessions sessionId) payload List.mem_cons_self
    exact ih (requestId + 1) (fun previous later hlater =>
      hallowed previous later (List.mem_cons_of_mem _ hlater)) (.handle services _ h hfirst)

/-- The preview of `かな` is the whole text. -/
theorem marked_text_whole_kana :
    ∃ session, kanaSessions [pressed .space []] "session" = some session ∧
      session.inputMode = .previewing ∧ session.previewCandidateIndex.isSome = true ∧
      session.MarksWhole plainConfig ∧ session.CommitsMarked plainConfig := by
  have htyped : Reached plainConfig (KeepsWhole plainConfig) (kanaSessions []) :=
    runMessages_reached _ 1 (fun previous payload hpayload => by
      refine keepsWhole_of_payload rfl previous ?_ ?_ <;>
      · simp only [List.mem_cons, List.not_mem_nil, or_false] at hpayload
        rcases hpayload with rfl | rfl | rfl <;> decide) .fresh
  obtain ⟨typed, hsession⟩ := kanaSessions_some
    (show (kanaSessions [] "session").isSome = true by decide +kernel)
  have hwhole : (kanaSessions [] "session").map (fun session =>
      session.segmentSurfaceCount) = some none := by decide +kernel
  rw [hsession] at hwhole
  have hspace : KeepsWhole plainConfig kanaServices (kanaSessions [] "session")
      (some (pressed .space [])) :=
    ⟨fun _ _ haction => absurd haction (by decide),
      fun before hbefore _ => .inl (by
        rw [hsession] at hbefore
        exact (Option.some.inj hbefore) ▸ Option.some.inj hwhole),
      fun _ _ _ _ _ hof => by simp [liveCandidateOf, plainConfig] at hof⟩
  obtain ⟨session, hshown⟩ := kanaSessions_some
    (show (kanaSessions [pressed .space []] "session").isSome = true by decide +kernel)
  have hmode : (kanaSessions [pressed .space []] "session").map (fun session =>
      (session.inputMode, session.previewCandidateIndex.isSome)) = some (.previewing, true) := by
    decide +kernel
  rw [hshown] at hmode
  obtain ⟨hpreviewing, hindex⟩ := Prod.mk.inj (Option.some.inj hmode)
  have hmarked := marked_text_whole plainConfig (kanaSessions [pressed .space []])
    (.handle kanaServices ⟨4, "session", some (pressed .space [])⟩ htyped hspace) "session"
      session hshown
  exact ⟨session, hshown, hpreviewing, hindex, hmarked.1, hmarked.2⟩

/-- `カ` is revealed above the list and stands where the preview of `かな` stood: Enter commits
it without `な`. -/
theorem marked_text_not_whole :
    ∃ session sessions, Reachable plainConfig sessions ∧ sessions "session" = some session ∧
      session.inputMode = .previewing ∧ session.composing.surfaceText = ['か', 'な'] ∧
      session.currentMarkedText = ['カ'] ∧ ¬session.MarksWhole plainConfig ∧
      (handleKey plainConfig kanaServices session { action := .enter }).toOption.map
        (fun result => (result.1.commit, result.2.composing.surfaceText)) = some (['カ'], []) := by
  let sessions := kanaSessions [pressed .space [], pressed .space [], pressed .up [],
    pressed .escape []]
  obtain ⟨session, hsession⟩ := kanaSessions_some (show (sessions "session").isSome = true by
    decide +kernel)
  have hshape : (sessions "session").map (fun session =>
      ((session.inputMode, session.composing.surfaceText, session.currentMarkedText),
        session.previewCandidateIndex.bind fun index =>
          (session.displayCandidates[index]?).map (session.remaining plainConfig),
        (handleKey plainConfig kanaServices session { action := .enter }).toOption.map
          (fun result => (result.1.commit, result.2.composing.surfaceText)))) =
      some ((.previewing, ['か', 'な'], ['カ']), some ['な'], some (['カ'], [])) := by
    decide +kernel
  have hfound : sessions "session" = some session := hsession
  rw [hfound] at hshape
  obtain ⟨hshown, hrest⟩ := Prod.mk.inj (Option.some.inj hshape)
  obtain ⟨hmode, htexts⟩ := Prod.mk.inj hshown
  obtain ⟨hsurface, hmarked⟩ := Prod.mk.inj htexts
  obtain ⟨hremaining, hcommit⟩ := Prod.mk.inj hrest
  refine ⟨session, sessions, kanaSessions_reachable _, hfound, hmode, hsurface,
    hmarked, ?_, hcommit⟩
  intro hwhole
  obtain ⟨index, hindex, hcandidate⟩ := Option.bind_eq_some_iff.mp hremaining
  obtain ⟨candidate, hshown, hnone⟩ := hwhole.preview hmode index hindex
  rw [hshown, Option.map_some, hnone] at hcandidate
  exact absurd (Option.some.inj hcandidate) (List.cons_ne_nil _ _).symm

end BeanKey.Engine
