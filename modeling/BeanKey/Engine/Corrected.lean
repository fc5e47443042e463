import BeanKey.Engine.Suggested
import BeanKey.Engine.Absorbed
import BeanKey.Engine.Marked

/-! Accepting a suggested correction. The edit counts the grapheme clusters of the text that is
shown, and the deletion takes positions of the surface. -/
namespace BeanKey.Engine
open Session Input Protocol SessionState ComposingText
variable {config : EngineConfig} {services : Services} {session : SessionState}

/-- What the text shares with the target, in clusters, ends between two positions, and behind
it the text has as many positions as clusters; where they share nothing, no more positions. -/
def SharedApart (unicode : UnicodeTable) (text : ComposingText) (target : Text) : Prop :=
  let clusters := graphemes unicode text.surfaceText
  let shared := commonPrefixLen clusters (graphemes unicode target)
  ∃ kept behind, text.surface = kept ++ behind ∧ kept.flatten = (clusters.take shared).flatten ∧
    (behind.length = (clusters.drop shared).length ∨
      kept = [] ∧ behind.length ≤ (clusters.drop shared).length)

/-- So it is where every position is a cluster of the text. -/
theorem sharedApart_of_graphemes {unicode : UnicodeTable} {text : ComposingText}
    (h : graphemes unicode text.surfaceText = text.surface) (target : Text) :
    SharedApart unicode text target := by
  unfold SharedApart
  dsimp only
  rw [h]
  exact ⟨_, _, (List.take_append_drop _ _).symm, rfl, .inl rfl⟩

/-- Then the positions left, when as many are deleted as there are clusters behind what is
shared, hold what is shared. -/
theorem sharedApart_iff {unicode : UnicodeTable} {text : ComposingText} {target : Text}
    {clusters : List Grapheme} (hclusters : graphemes unicode text.surfaceText = clusters)
    {shared : Nat} (hshared : commonPrefixLen clusters (graphemes unicode target) = shared) :
    SharedApart unicode text target ↔
      (text.surface.take (text.surface.length - (clusters.length - shared))).flatten =
        (clusters.take shared).flatten := by
  unfold SharedApart
  dsimp only
  rw [hclusters, hshared, List.length_drop]
  constructor
  · rintro ⟨kept, behind, hsurface, hkept, hbehind⟩
    rw [← hkept, hsurface, List.length_append]
    rcases hbehind with hlength | ⟨rfl, hlength⟩
    · rw [← hlength, Nat.add_sub_cancel, List.take_left]
    · rw [List.length_nil, Nat.zero_add, Nat.sub_eq_zero_of_le hlength, List.take_zero]
  · intro htake
    refine ⟨_, _, (List.take_append_drop _ _).symm, htake, ?_⟩
    by_cases hle : clusters.length - shared ≤ text.surface.length
    · left
      rw [List.length_drop]
      omega
    · right
      have hnone : text.surface.length - (clusters.length - shared) = 0 := by omega
      rw [hnone]
      exact ⟨rfl, by rw [List.drop_zero]; omega⟩

/-- The edit keeps the clusters the texts share, counts those behind them and appends the rest
of the target. -/
theorem suffixEditPrediction_target {unicode : UnicodeTable} {current target display : Text}
    {prediction : InputPrediction}
    (h : suffixEditPrediction unicode current target display = some prediction) :
    prediction.displayText = display ∧
      prediction.deleteCount = (graphemes unicode current).length -
        commonPrefixLen (graphemes unicode current) (graphemes unicode target) ∧
      prediction.appendText = ((graphemes unicode target).drop
        (commonPrefixLen (graphemes unicode current) (graphemes unicode target))).flatten := by
  unfold suffixEditPrediction at h
  dsimp only at h
  split at h
  · cases h
    exact ⟨rfl, rfl, rfl⟩
  · cases h

theorem target_eq_shared_append (unicode : UnicodeTable) (current target : Text) :
    target = ((graphemes unicode current).take
        (commonPrefixLen (graphemes unicode current) (graphemes unicode target))).flatten ++
      ((graphemes unicode target).drop
        (commonPrefixLen (graphemes unicode current) (graphemes unicode target))).flatten := by
  rw [take_commonPrefixLen, ← List.flatten_append, List.take_append_drop, flatten_graphemes]

theorem acceptPrediction_surface {prediction : InputPrediction} {accepted : SessionState}
    (h : session.composing.Coherent config.tables) (hend : session.composing.isAtEnd = true)
    (hcandidate : prediction.candidate = none)
    (haccept : acceptPrediction config session prediction = some accepted) :
    accepted.composing.surface = session.composing.surface.take
      (session.composing.surface.length - prediction.deleteCount) ++
        graphemes config.unicode prediction.appendText := by
  have hcursor : session.composing.cursor = session.composing.surface.length :=
    of_decide_eq_true hend
  have hwell := h.wellFormed hend
  have hdeleted := deleteBackward_composing_of_pos session.conversion config.tables
    prediction.deleteCount
  obtain ⟨hsurface, hleftEnd⟩ := deleteBackward_end hwell hcursor prediction.deleteCount
  have hleft := deleteBackward_wellFormed hwell prediction.deleteCount
  rw [← hdeleted] at hsurface hleftEnd hleft
  unfold acceptPrediction at haccept
  rw [hcandidate] at haccept
  dsimp only at haccept
  split at haccept
  · rename_i hnil
    cases haccept
    rw [hnil, graphemes_nil, List.append_nil]
    exact hsurface
  · rename_i happend
    cases haccept
    exact (@insertStr_direct config.unicode _ _ hleft hleftEnd _ happend).1.trans
      (congrArg (· ++ graphemes config.unicode prediction.appendText) hsurface)

/-- Tab puts the edit of the shown correction in place: the text it leaves is the target if and
only if what the texts share lies apart in the surface. -/
theorem acceptPrediction_target {prediction : InputPrediction} {accepted : SessionState}
    {target : Text} (h : session.composing.Coherent config.tables)
    (hend : session.composing.isAtEnd = true) (hcandidate : prediction.candidate = none)
    (hedit : suffixEditPrediction config.unicode session.composing.surfaceText target
      prediction.displayText = some prediction)
    (haccept : acceptPrediction config session prediction = some accepted) :
    accepted.composing.surfaceText = target ↔
      SharedApart config.unicode session.composing target := by
  obtain ⟨-, hcount, happend⟩ := suffixEditPrediction_target hedit
  have hsurface := acceptPrediction_surface h hend hcandidate haccept
  have hshared := target_eq_shared_append config.unicode session.composing.surfaceText target
  rw [sharedApart_iff rfl rfl, surfaceText, hsurface, List.flatten_append, flatten_graphemes,
    hcount, happend]
  constructor
  · intro heq
    exact List.append_left_inj _ |>.mp (heq.trans hshared)
  · intro heq
    rw [heq]
    exact hshared.symm

/-- From a text that stays inside, such a correction leads to one that does. -/
theorem acceptPrediction_inside {prediction : InputPrediction} {accepted : SessionState}
    {target : Text} (hcoherent : accepted.composing.Coherent config.tables)
    (hinside : ConvertsInside config session.composing)
    (h : session.composing.Coherent config.tables)
    (hend : session.composing.isAtEnd = true) (hcandidate : prediction.candidate = none)
    (hedit : suffixEditPrediction config.unicode session.composing.surfaceText target
      prediction.displayText = some prediction)
    (haccept : acceptPrediction config session prediction = some accepted)
    (hapart : SharedApart config.unicode session.composing target) :
    ConvertsInside config accepted.composing := by
  have htarget := (acceptPrediction_target h hend hcandidate hedit haccept).mpr hapart
  obtain ⟨-, hcount, happend⟩ := suffixEditPrediction_target hedit
  have hshared := commonPrefixLen_le (graphemes config.unicode session.composing.surfaceText)
    (graphemes config.unicode target)
  refine ⟨hcoherent.surface, ?_⟩
  rw [htarget, acceptPrediction_surface h hend hcandidate haccept, happend, graphemes_drop,
    List.length_append, List.length_take, List.length_drop, hcount, ← hinside.count]
  omega

theorem acceptPrediction_segment {prediction : InputPrediction} {accepted : SessionState}
    (h : acceptPrediction config session prediction = some accepted) :
    accepted.segmentSurfaceCount = session.segmentSurfaceCount := by
  unfold acceptPrediction at h
  dsimp only at h
  split at h
  · obtain ⟨conversion, -, rfl⟩ := Option.map_eq_some_iff.mp h
    rfl
  · split at h
    · cases h
      rfl
    · cases h
      rfl

theorem keyAsked_tab {event : KeyEvent} (haction : event.action = .tab)
    (hmode : session.inputMode = .composing) {prediction : InputPrediction}
    (hprediction : session.prediction = some prediction) {accepted : SessionState}
    (haccept : acceptPrediction config session prediction = some accepted) :
    keyAsked config session event = some (requestedText config accepted) := by
  have hdirect : directInput config session event = none := by
    unfold directInput
    exact if_neg fun hdirect => UserAction.noConfusion (haction.symm.trans hdirect.1)
  unfold keyAsked
  rw [hdirect]
  simp [hmode, actionAsked, haction, tabAsked, hprediction, haccept]

/-- While no message goes to a text that shows nothing but holds input, a shown correction is
the edit of the text there is to the kept target. Tab turns the text into the target, where it
is answered, if and only if what both share lies apart in the surface; and it is answered by
all services that answer for what stays inside if and only if the text it leaves does, as it
does where it is the target and the text before it stays inside. -/
theorem correction_reaches_target (config : EngineConfig) (hs : config.tables.Silent)
    (sessions : Sessions) (h : Reached config ShowsInput sessions) (sessionId : String)
    (session : SessionState) (hsession : sessions sessionId = some session)
    (hmode : session.inputMode = .composing) (prediction : InputPrediction)
    (hprediction : session.prediction = some prediction)
    (hcandidate : prediction.candidate = none) (event : KeyEvent) (haction : event.action = .tab)
    (hevent : event.WellFormed) :
    ∃ target, session.backspaceCorrection = some (prediction.displayText, target) ∧
      (∀ (services : Services) (requestId : Nat), session.lastRequestId < requestId →
        let after := handle config services sessions ⟨requestId, sessionId, some (.keyEvent event)⟩
        ∀ response, after.1.payload = some (.stateResponse response) →
          ∃ left, after.2 sessionId = some left ∧
            (left.composing.surfaceText = target ↔
              SharedApart config.unicode session.composing target)) ∧
      ((∀ services : Services, services.SucceedInside config →
        ∀ requestId, session.lastRequestId < requestId →
          let after := handle config services sessions
            ⟨requestId, sessionId, some (.keyEvent event)⟩
          ∃ response left, after.1.payload = some (.stateResponse response) ∧
            after.2 sessionId = some left ∧ left.composing.surfaceText = target) ↔
        SharedApart config.unicode session.composing target ∧
          ∀ text, keyAsked config session event = some text → ConvertsInside config text) ∧
      (¬session.composing.HidesInput → ConvertsInside config session.composing →
        SharedApart config.unicode session.composing target →
          ∀ text, keyAsked config session event = some text → ConvertsInside config text) := by
  have hsuggests := h.suggests hs sessionId session hsession
  obtain ⟨display, target, hkept, hedit⟩ := hsuggests.offered prediction hprediction hcandidate
  obtain ⟨rfl, -⟩ := suffixEditPrediction_target hedit
  obtain ⟨hsegment, hend⟩ := hsuggests.held (by rw [hkept]; rfl)
  have hselects : SelectsShown config session event := by
    intro index hselected
    simp [selectedIndex, hmode] at hselected
  have hanswered (services : Services) (requestId : Nat)
      (hnumber : session.lastRequestId < requestId) :
      let after := handle config services sessions ⟨requestId, sessionId, some (.keyEvent event)⟩
      ∀ response, after.1.payload = some (.stateResponse response) →
        ∃ left, after.2 sessionId = some left ∧
          (left.composing.surfaceText = target ↔
            SharedApart config.unicode session.composing target) := by
    intro after response hresponse
    obtain ⟨accepted, left, haccept, hleft, hcomposing⟩ := accepted_of_answered hsession
      hsuggests.fullComposing hmode hprediction hcandidate haction hevent hnumber hresponse
    refine ⟨left, hleft, ?_⟩
    rw [hcomposing]
    exact acceptPrediction_target hsuggests.coherent hend hcandidate hedit haccept
  refine ⟨target, hkept, hanswered, ⟨fun hall => ?_, fun hboth => ?_⟩,
    fun hvisible hinside hapart => ?_⟩
  · obtain ⟨response, left, hresponse, hleft, htarget⟩ := hall (insideServices config)
      (insideServices_succeed config) (session.lastRequestId + 1) (Nat.lt_succ_self _)
    obtain ⟨left', hleft', hiff⟩ := hanswered _ _ (Nat.lt_succ_self _) response hresponse
    obtain rfl := Option.some.inj (hleft.symm.trans hleft')
    exact ⟨hiff.mp htarget, (inside_of_answered hsession hevent (Nat.lt_succ_self _) hresponse).2⟩
  · intro services hservices requestId hnumber
    obtain ⟨response, hresponse⟩ :=
      answered_of_inside hservices hsession hevent hnumber hselects hboth.2
    obtain ⟨left, hleft, hiff⟩ := hanswered services requestId hnumber response hresponse
    exact ⟨response, left, hresponse, hleft, hiff.mpr hboth.1⟩
  · obtain ⟨accepted, haccept⟩ := acceptPrediction_suffix config session hcandidate
    have hready := acceptPrediction_ready hsuggests hvisible hprediction haccept
    have haccepted := acceptPrediction_inside hready.coherent hinside hsuggests.coherent hend
      hcandidate hedit haccept hapart
    intro text hasked
    rw [keyAsked_tab haction hmode hprediction haccept] at hasked
    obtain rfl := Option.some.inj hasked
    have hwhole : accepted.segmentSurfaceCount = none :=
      (acceptPrediction_segment haccept).trans hsegment
    rw [requestedText, hwhole]
    exact haccepted

/-! ### Typing over an empty dictionary, with a correction -/

def isRegionalIndicator (character : Char) : Bool :=
  0x1f1e6 ≤ character.toNat && character.toNat ≤ 0x1f1ff

theorem isRegionalIndicator_katakanaChar (character : Char) :
    isRegionalIndicator (katakanaChar character) = isRegionalIndicator character := by
  unfold katakanaChar
  by_cases h : 0x3041 ≤ character.toNat ∧ character.toNat ≤ 0x3096
  · rw [if_pos h, isRegionalIndicator, isRegionalIndicator, toNat_ofNat (.inl (by omega)),
      Bool.eq_iff_iff]
    simp only [Bool.and_eq_true, decide_eq_true_eq]
    omega
  · rw [if_neg h]

theorem isRegionalIndicator_hiraganaChar (character : Char) :
    isRegionalIndicator (hiraganaChar character) = isRegionalIndicator character := by
  unfold hiraganaChar
  by_cases h : 0x30a1 ≤ character.toNat ∧ character.toNat ≤ 0x30f6
  · rw [if_pos h, isRegionalIndicator, isRegionalIndicator, toNat_ofNat (.inl (by omega)),
      Bool.eq_iff_iff]
    simp only [Bool.and_eq_true, decide_eq_true_eq]
    omega
  · rw [if_neg h]

/-- Kana and the letters of flags, two of which make a cluster. -/
def flagTable : UnicodeTable where
  properties character :=
    { kind := if isRegionalIndicator character then .regionalIndicator else .other }
  katakana_alike character := by rw [isRegionalIndicator_katakanaChar]
  hiragana_alike character := by rw [isRegionalIndicator_hiraganaChar]

def correctingConfig : EngineConfig :=
  { plainConfig with
    unicode := flagTable, lmTypoEnabled := true, lmTypoNgram := true, ngram_loaded := fun _ => rfl }

theorem correctingConfig_silent : correctingConfig.tables.Silent := by
  intro style table hresolve
  cases style with
  | direct => exact absurd hresolve (by simp [InputTableRegistry.resolve])
  | romanToKana => cases hresolve; rfl
  | mapped table => cases table <;> cases hresolve <;> rfl

/-- The model corrects every text to one reading, and what does not stay inside is refused. -/
def correctingServices (reading : Text) : Services :=
  { insideServices correctingConfig with typoCorrections := fun _ _ => .ok [⟨reading, reading⟩] }

theorem correctingServices_succeed (reading : Text) :
    (correctingServices reading).SucceedInside correctingConfig :=
  { insideServices_succeed correctingConfig with typoCorrections := fun _ _ _ h => nomatch h }

def correctedSessions (reading : Text) (keys : List Text) : Sessions :=
  runMessages correctingConfig (correctingServices reading) "session" 1
    (.startSession ⟨.unspecified, none, .unspecified, []⟩ ::
      (keys.map (pressed .input) ++ [pressed .backspace []])) .fresh

/-- The messages of a run that meet a session whose text shows what it holds. -/
def showsThroughout (config : EngineConfig) (services : Services) (sessionId : String) :
    Nat → List Payload → Sessions → Bool
  | _, [], _ => true
  | requestId, payload :: payloads, sessions =>
    (sessions sessionId).all (fun session => !decide session.composing.HidesInput) &&
      showsThroughout config services sessionId (requestId + 1) payloads
        (handle config services sessions ⟨requestId, sessionId, some payload⟩).2

theorem runMessages_showsInput {sessionId : String} (payloads : List Payload) (requestId : Nat)
    {sessions : Sessions} (h : Reached config ShowsInput sessions)
    (hshows : showsThroughout config services sessionId requestId payloads sessions = true) :
    Reached config ShowsInput
      (runMessages config services sessionId requestId payloads sessions) := by
  induction payloads generalizing requestId sessions with
  | nil => exact h
  | cons payload payloads ih =>
    obtain ⟨hfirst, hrest⟩ := (Bool.and_eq_true _ _).mp hshows
    refine ih (requestId + 1) (.handle services _ h fun before hbefore => ?_) hrest
    have hbefore : sessions sessionId = some before := hbefore
    rw [hbefore] at hfirst
    simpa using hfirst

def tabKey : KeyEvent := { action := .tab }

def kakiSessions : Sessions := correctedSessions ['か', 'き'] [['か'], ['た'], ['さ']]

/-- Tab takes `た` back and writes `き`. -/
theorem correction_reaches_target_kana :
    ∃ session response left, kakiSessions "session" = some session ∧
      session.composing.surfaceText = ['か', 'た'] ∧
      (handle correctingConfig (correctingServices ['か', 'き']) kakiSessions
        ⟨6, "session", some (.keyEvent tabKey)⟩).1.payload = some (.stateResponse response) ∧
      (handle correctingConfig (correctingServices ['か', 'き']) kakiSessions
        ⟨6, "session", some (.keyEvent tabKey)⟩).2 "session" = some left ∧
      left.composing.surfaceText = ['か', 'き'] := by
  obtain ⟨session, hsession⟩ := Option.isSome_iff_exists.mp
    (show (kakiSessions "session").isSome = true by decide +kernel)
  have hstate := eq_of_map (fun session => (session.lastRequestId, session.inputMode,
    session.composing.surfaceText, decide (session.composing.HidesInput),
    decide (ConvertsInside correctingConfig session.composing),
    decide (graphemes correctingConfig.unicode session.composing.surfaceText =
      session.composing.surface)))
    hsession (show _ = some (5, .composing, ['か', 'た'], false, true, true) by decide +kernel)
  obtain ⟨hnumber, hstate⟩ := Prod.mk.inj hstate
  obtain ⟨hmode, hstate⟩ := Prod.mk.inj hstate
  obtain ⟨hsurface, hstate⟩ := Prod.mk.inj hstate
  obtain ⟨hvisible, hstate⟩ := Prod.mk.inj hstate
  obtain ⟨hinside, hclusters⟩ := Prod.mk.inj hstate
  have hedit := eq_of_map (fun session => (session.backspaceCorrection.map Prod.snd,
    session.prediction.map fun prediction => (prediction.deleteCount, prediction.candidate.isNone)))
    hsession (show _ = some (some ['か', 'き'], some (1, true)) by decide +kernel)
  obtain ⟨hcorrection, hprediction⟩ := Prod.mk.inj hedit
  obtain ⟨prediction, hshown, hcounts⟩ := Option.map_eq_some_iff.mp hprediction
  have hnone := (Prod.mk.inj hcounts).2
  have hreached : Reached correctingConfig ShowsInput kakiSessions :=
    runMessages_showsInput _ 1 .fresh (by decide +kernel)
  obtain ⟨target, hkept, -, htab, hasked⟩ := correction_reaches_target correctingConfig
    correctingConfig_silent _ hreached "session" session hsession hmode prediction hshown
      (Option.isNone_iff_eq_none.mp hnone) tabKey rfl (fun _ h => nomatch h)
  have htarget : target = ['か', 'き'] := by
    rw [hkept] at hcorrection
    exact Option.some.inj hcorrection
  have hapart := sharedApart_of_graphemes (of_decide_eq_true hclusters) target
  obtain ⟨response, left, hresponse, hleft, hreads⟩ := htab.mpr
    ⟨hapart, hasked (of_decide_eq_false hvisible) (of_decide_eq_true hinside) hapart⟩
      (correctingServices ['か', 'き']) (correctingServices_succeed _) 6 (by omega)
  exact ⟨session, response, left, hsession, hsurface, hresponse, hleft, hreads.trans htarget⟩

/-- A flag letter, two more at once, `さ` and `た`, with a backspace. The model takes the third
letter and `さ` for each other's place. -/
def flagSessions : Sessions :=
  correctedSessions ['🇦', '🇧', 'さ', '🇨', 'た'] [['🇦'], ['🇧', '🇨'], ['さ'], ['た']]

/-- The letters of the text pair up across its positions: Tab deletes the second position with
its two letters, and the flag before `さ` is gone. -/
theorem correction_misses_target :
    ∃ session, Reached correctingConfig ShowsInput flagSessions ∧
      flagSessions "session" = some session ∧ session.inputMode = .composing ∧
      ConvertsInside correctingConfig session.composing ∧
      session.prediction.map (fun prediction =>
        (prediction.appendText, prediction.deleteCount, prediction.candidate.isNone)) =
          some (['さ', '🇨', 'た'], 2, true) ∧
      session.backspaceCorrection.map Prod.snd = some ['🇦', '🇧', 'さ', '🇨', 'た'] ∧
      ((handle correctingConfig (correctingServices ['🇦', '🇧', 'さ', '🇨', 'た']) flagSessions
        ⟨7, "session", some (.keyEvent tabKey)⟩).2 "session").map
          (fun left => (left.composing.surfaceText,
            decide (ConvertsInside correctingConfig left.composing))) =
              some (['🇦', 'さ', '🇨', 'た'], true) := by
  obtain ⟨session, hsession⟩ := Option.isSome_iff_exists.mp
    (show (flagSessions "session").isSome = true by decide +kernel)
  have hstate := eq_of_map (fun session => (session.inputMode,
    decide (ConvertsInside correctingConfig session.composing)))
    hsession (show _ = some (.composing, true) by decide +kernel)
  obtain ⟨hmode, hinside⟩ := Prod.mk.inj hstate
  have hprediction := eq_of_map (fun session => session.prediction.map fun prediction =>
    (prediction.appendText, prediction.deleteCount, prediction.candidate.isNone))
    hsession (show _ = some (some (['さ', '🇨', 'た'], 2, true)) by decide +kernel)
  exact ⟨session, runMessages_showsInput _ 1 .fresh (by decide +kernel), hsession, hmode,
    of_decide_eq_true hinside, hprediction,
    eq_of_map (fun session => session.backspaceCorrection.map Prod.snd) hsession
      (by decide +kernel), by decide +kernel⟩

end BeanKey.Engine
