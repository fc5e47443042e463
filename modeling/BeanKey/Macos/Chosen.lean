import BeanKey.Macos.Runs

/-! What a click on a row of the panel gives to the text client, and what it costs on a row of an
earlier connection. -/
namespace BeanKey.Macos
open Engine Protocol Leasing

def CandidatePanel.commitOf (panel : CandidatePanel) (row : CandidateRow) : Text :=
  if panel.typoCandidates = [] then row.text else row.annotation

namespace Context
variable {config : EngineConfig} {uuid : Nat → String} (outside : Nat → Outside) {context : Context}
  {era : Nat} {others : String → Option SessionState}

theorem fail_inserted (context : Context) :
    context.fail.session.inserted = context.session.inserted :=
  InputSession.clear_inserted context.session

theorem start_inserted (config : EngineConfig) (uuid : Nat → String) (context : Context) :
    (context.start config uuid outside).2.session.inserted = context.session.inserted := by
  have hcurrent : context.current.session.inserted = context.session.inserted := by
    unfold Context.current
    split
    · exact InputSession.clear_inserted context.session
    · rfl
  unfold Context.start
  generalize context.current = current at hcurrent ⊢
  dsimp only
  split
  · exact hcurrent
  · split
    · exact hcurrent
    · split
      · exact hcurrent
      · exact (fail_inserted _).trans hcurrent

theorem Live.select (hlive : context.Live) (h : context.Sound config uuid era others)
    (index : Nat) :
    context.select config uuid outside index =
      context.send config outside (selection context.session index) := by
  unfold Context.select Context.whenStarted
  rw [if_pos (h.tidy.client hlive.named), hlive.start_same]
  rfl

/-- The daemon has under the index of a row what the row shows. Beyond 32 bits an index says
nothing. -/
theorem Sound.shown_commits (h : context.Sound config uuid era others)
    {row index : Nat} {shown : CandidateRow}
    (hindex : context.session.panel.indices[row]? = some index)
    (hrow : context.session.panel.rows[row]? = some shown) (hsmall : index < u32Max)
    {held : SessionState}
    (hheld : context.connection.sessions context.session.sessionId = some held)
    (hagrees : context.session.Agrees held) (services : Services) :
    let answer := (handleMessage config services (some held) context.session.nextRequest
      (some (selection context.session index))).1
    (services.Succeed → ∃ response, answer = .stateResponse response) ∧
      ∀ response, answer = .stateResponse response →
        response.commit = context.session.panel.commitOf shown := by
  unfold selection CandidatePanel.commitOf
  by_cases hnone : context.session.panel.typoCandidates = []
  · simp only [hnone, if_true]
    obtain ⟨candidate, hcandidate, hplace, hshown⟩ := h.tidy.panel.candidates hnone row index hindex
    rw [hrow, Option.some.injEq] at hshown
    obtain ⟨place, found, hfound, htext, hsame⟩ := hagrees.shown.listed candidate hcandidate
    have hfoundIndex : held.displayCandidates[index]? = some found := by
      rwa [← hplace, hsame, min_eq_left (by omega)]
    rw [hshown, show (candidateRow candidate).text = found.text from htext]
    exact handleMessage_select (h.connection.inStep _ _ hheld) hagrees.number hfoundIndex
  · simp only [hnone, if_false]
    obtain ⟨correction, hcorrection, hshown⟩ := h.tidy.panel.typos hnone row index hindex
    rw [hrow, Option.some.injEq] at hshown
    rw [← hagrees.typos hnone] at hcorrection
    obtain ⟨response, hresponse, hcommit⟩ :=
      handleMessage_selectTypo config services hagrees.number hcorrection
    refine ⟨fun _ => ⟨response, hresponse⟩, fun other hother => ?_⟩
    rw [hresponse] at hother
    cases hother
    rw [hcommit, hshown]
    rfl

/-- A click on a row of a live session gives the text of the row to the client or, where something
fails, nothing. -/
theorem Live.select_inserted (hlive : context.Live) (h : context.Sound config uuid era others)
    {row index : Nat} {shown : CandidateRow}
    (hindex : context.session.panel.indices[row]? = some index)
    (hrow : context.session.panel.rows[row]? = some shown) (hsmall : index < u32Max) :
    let after := (context.select config uuid outside index).2.session.inserted
    after = context.session.inserted ∨
      after = context.session.givenTexts (context.session.panel.commitOf shown) := by
  have hasks := selection_asks h.tidy hindex
  have hcases := hlive.request_cases outside h _ (hlive.welcome h hasks.2)
  have hcommits {held : SessionState}
      (hheld : context.connection.sessions context.session.sessionId = some held)
      (hagrees : context.session.Agrees held) (services : Services) :=
    (h.shown_commits hindex hrow hsmall hheld hagrees services).2
  rw [hlive.select outside h]
  unfold Context.send
  dsimp only at hcases ⊢
  generalize context.request config outside (selection context.session index) = after at hcases ⊢
  obtain ⟨answer, asked⟩ := after
  obtain ⟨-, hsession, hcases⟩ := hcases
  dsimp only at *
  have hkept : asked.fail.session.inserted = context.session.inserted := by
    rw [fail_inserted, hsession]
    rfl
  rcases hcases with ⟨rfl, -⟩ | ⟨services, held, answer, hheld, hagrees, rfl, -, -, -, hanswer, -⟩
  · exact .inl hkept
  · split
    · next state hstate =>
      cases hstate
      obtain ⟨calls, hcalls, -, hinserted⟩ := h.tidy.shown.applyText (handleMessage_inside hanswer)
        (outside context.connection.time).underlines
      rw [hsession, hcalls, ← hcommits hheld hagrees services state hanswer]
      exact .inr (insertedTexts_given hinserted)
    · exact .inl hkept

theorem Live.select_given (hlive : context.Live) (h : context.Sound config uuid era others)
    {row index : Nat} {shown : CandidateRow}
    (hindex : context.session.panel.indices[row]? = some index)
    (hrow : context.session.panel.rows[row]? = some shown) (hsmall : index < u32Max)
    (hdelivered : (outside context.connection.time).reaches ∧
      (outside context.connection.time).returns)
    (hservices : (outside context.connection.time).services.Succeed) :
    (context.select config uuid outside index).2.session.inserted =
      context.session.givenTexts (context.session.panel.commitOf shown) := by
  obtain ⟨held, hheld, hagrees⟩ := hlive.held h
  obtain ⟨hanswers, hcommits⟩ := h.shown_commits hindex hrow hsmall hheld hagrees
    (outside context.connection.time).services
  obtain ⟨state, hstate⟩ := hanswers hservices
  have hrequest : (context.request config outside (selection context.session index)).1 =
      some (.stateResponse state) := by
    simp [Context.request, DaemonConnection.request, hlive.ready h, hdelivered.1, hdelivered.2,
      handle_fst, hheld, hstate]
  have hsession : (context.request config outside (selection context.session index)).2.session =
      { context.session with nextRequest := context.session.nextRequest + 1 } := rfl
  obtain ⟨calls, hcalls, -, hinserted⟩ := h.tidy.shown.applyText (handleMessage_inside hstate)
    (outside context.connection.time).underlines
  rw [hlive.select outside h]
  unfold Context.send
  dsimp only
  rw [hrequest]
  simp only [hsession, hcalls]
  rw [← hcommits state hstate]
  exact insertedTexts_given hinserted

/-! ### Rows of an earlier connection -/

/-- A row that was left from an earlier connection is chosen: a session is started for it, which has
nothing to select, and that closes the connection. -/
theorem Sound.select_stale (h : context.Sound config uuid era others) (hunique : Unique uuid)
    (hdead : ¬ context.Live) (hready : context.connection.ready = true) {row index : Nat}
    (hindex : context.session.panel.indices[row]? = some index) :
    (context.select config uuid outside index).2.connection.ready = false ∧
      (context.select config uuid outside index).2.session.inserted =
        context.session.inserted := by
  have hnamed : context.session.sessionId ≠ "" := by
    intro hname
    rw [(h.tidy.idle hname).1] at hindex
    cases hindex
  have hclient := h.tidy.client hnamed
  obtain ⟨hsound, hcases⟩ := h.start outside hunique hclient
  have hinserted := start_inserted outside config uuid context
  have hfailed : (context.start config uuid outside).1 = false →
      (context.start config uuid outside).2.connection.ready = false := by
    intro hno
    have hcurrent := current_cases context
    have hsame := (current_textClient context).2
    unfold Context.start at *
    generalize context.current = current at *
    dsimp only at *
    rcases hcurrent with ⟨-, hlive⟩ | ⟨hidle, -⟩
    · exact absurd hlive hdead
    · rw [if_neg (not_not.mpr hidle), hsame, hready] at hno ⊢
      simp only [Bool.not_true, Bool.false_eq_true, if_false] at hno ⊢
      split at hno
      · cases hno
      · rfl
  unfold Context.select Context.whenStarted
  rw [if_pos hclient]
  generalize context.start config uuid outside = started at hsound hcases hinserted hfailed ⊢
  dsimp only
  split
  · next hstarted =>
    rcases hcases hstarted with ⟨hlive, -⟩ | ⟨-, hfresh⟩
    · exact absurd hlive hdead
    · rw [hfresh.panel]
      obtain ⟨-, hclosed, -, hkept⟩ := hfresh.refused outside hsound ⟨index, .inl rfl⟩
      exact ⟨hclosed, hkept.trans hinserted⟩
  · next hnot => exact ⟨hfailed (by simpa using hnot), hinserted⟩

theorem Live.digit_chooses (hlive : context.Live) (h : context.Sound config uuid era others)
    {press : KeyPress} {row index : Nat} (hdown : press.isKeyDown = true)
    (haction : press.key.action ≠ .unspecified) (hdigit : press.digit = some row)
    (hselecting : context.session.panel.selecting = true)
    (hindex : context.session.panel.indices[row]? = some index) :
    context.perform config uuid outside (.handleEvent press) =
      context.perform config uuid outside (.choose row) := by
  have hwith : ({ context.session with textClient := true } : InputSession) = context.session := by
    rw [← h.tidy.client hlive.named]
  have hpressed : press.digit.bind context.session.panel.candidateForDigit = some index := by
    simp [hdigit, CandidatePanel.candidateForDigit, hselecting, hindex]
  show (context.handleEvent config uuid outside press).2 = _
  unfold Context.handleEvent Context.perform
  rw [if_pos hdown]
  dsimp only
  rw [if_neg haction, hwith, hlive.start_same, if_pos rfl]
  unfold Context.pressed
  rw [hpressed]
  simp only [hindex]

end Context

/-! ### Over runs -/

section
variable {Name : Type} [DecidableEq Name] (config : EngineConfig) {uuid : Nat → String}
  (outside : Nat → Outside) (events : List (Event Name))

/-- In the panel of every live input session of a run, a click on a row gives the text of the row to
the text client, once, or nothing where the daemon fails; a digit of an open panel does the same. -/
theorem row_given (hunique : Unique uuid) (name : Name) {row index : Nat} {shown : CandidateRow} :
    let context := (({} : InputMethod Name).run config uuid outside events).context name
    let now := outside context.connection.time
    let after := context.perform config uuid outside (.choose row)
    let given := context.session.givenTexts (context.session.panel.commitOf shown)
    context.Live → context.session.panel.rows[row]? = some shown →
      context.session.panel.indices[row]? = some index → index < u32Max →
      (after.session.inserted = context.session.inserted ∨
        after.session.inserted = given) ∧
      (now.reaches ∧ now.returns → now.services.Succeed → after.session.inserted = given) ∧
      ∀ press : KeyPress, press.isKeyDown = true → press.key.action ≠ .unspecified →
        press.digit = some row → context.session.panel.selecting = true →
        context.perform config uuid outside (.handleEvent press) = after := by
  intro context now after given hlive hrow hindex hsmall
  have hsound := (InputMethod.run_sound outside config hunique events).context name
  have hchosen : after = (context.select config uuid outside index).2 := by
    simp [after, Context.perform, hindex]
  rw [hchosen]
  refine ⟨hlive.select_inserted outside hsound hindex hrow hsmall,
    fun hdelivered hservices => ?_, ?_⟩
  · exact hlive.select_given outside hsound hindex hrow hsmall hdelivered hservices
  · intro press hdown haction hdigit hselecting
    rw [← hchosen]
    exact hlive.digit_chooses outside hsound hdown haction hdigit hselecting hindex

/-- A click on `カ`. -/
theorem row_given_kana : ((kanaMethod.context true).perform plainConfig unaryUuid (answering 9)
    (.choose 1)).session.inserted = [['カ']] := by
  have hrow : (kanaMethod.context true).session.panel.rows[1]? = some ⟨['カ'], []⟩ := by
    decide +kernel
  have hindex : (kanaMethod.context true).session.panel.indices[1]? = some 1 := by decide +kernel
  have hlive := kanaMethod_live
  have hgiven : (kanaMethod.context true).session.givenTexts
      ((kanaMethod.context true).session.panel.commitOf ⟨['カ'], []⟩) = [['カ']] := by decide +kernel
  have hreaches : (answering 9 (kanaMethod.context true).connection.time).reaches = true := by
    decide +kernel
  have hinserted := @row_given _ _ plainConfig _ (answering 9) kanaEvents unaryUuid_unique true 1 1
    ⟨['カ'], []⟩
  unfold kanaMethod at *
  generalize ({} : InputMethod Bool).run plainConfig unaryUuid (answering 9)
    kanaEvents = method at *
  rw [(hinserted hlive hrow hindex (by decide)).2.1 ⟨hreaches, rfl⟩ kanaServices_succeed, hgiven]

/-- A click on a row that is left from an earlier connection closes the connection there is, and
gives nothing to any client: no input session is live after it. -/
theorem stale_row_closes (hunique : Unique uuid) (name : Name) {row index : Nat} :
    let method := ({} : InputMethod Name).run config uuid outside events
    let after := method.step config uuid outside (.operate name (.choose row))
    ¬ (method.context name).Live → method.connection.ready = true →
      (method.sessions name).panel.indices[row]? = some index →
      ∀ someone, ¬ (after.context someone).Live ∧
        (after.sessions someone).inserted = (method.sessions someone).inserted := by
  intro method after hdead hready hindex someone
  have hsound : method.Sound config uuid := InputMethod.run_sound outside config hunique events
  have hclosed := (hsound.context name).select_stale outside hunique hdead hready hindex
  have hafter : after.connection =
      ((method.context name).select config uuid outside index).2.connection ∧
      after.sessions = Function.update method.sessions name
        ((method.context name).select config uuid outside index).2.session := by
    simp [after, InputMethod.step, InputMethod.context, Context.perform, hindex]
  constructor
  · intro hlive
    have hopen :=
      hlive.ready ((hsound.step outside hunique (.operate name (.choose row))).context someone)
    rw [show ((method.step config uuid outside (.operate name (.choose row))).context
      someone).connection =
      after.connection from rfl, hafter.1, hclosed.1] at hopen
    cases hopen
  · rw [hafter.2]
    by_cases hsame : someone = name
    · subst hsame
      rw [Function.update_self]
      exact hclosed.2
    · rw [Function.update_of_ne hsame]

/-- Another input session lost the connection while `かな` was converted, and it was prepared
again. -/
theorem stale_row_closes_lost : lostMethod.connection.ready = true ∧ ∀ someone,
    ¬ ((lostMethod.step plainConfig unaryUuid (answering 5) (.operate true (.choose 1))).context
      someone).Live := by
  have hready : lostMethod.connection.ready = true := by decide +kernel
  have hstale : (lostMethod.sessions true).generation ≠ lostMethod.connection.generation := by
    decide +kernel
  have hindex : (lostMethod.sessions true).panel.indices[1]? = some 1 := by decide +kernel
  have hcloses := @stale_row_closes _ _ plainConfig _ (answering 5) lostEvents
    unaryUuid_unique true 1 1
  unfold lostMethod at *
  generalize ({} : InputMethod Bool).run plainConfig unaryUuid (answering 5)
    lostEvents = method at *
  exact ⟨hready, fun someone =>
    (hcloses (fun hlive => hstale hlive.generation) hready hindex someone).1⟩

end

end BeanKey.Macos
