import BeanKey.Fcitx.Runs

/-! What a click or a digit commits, and what a reset costs. -/
namespace BeanKey.Fcitx
open Engine Protocol Leasing

def CandidateWord.index : CandidateWord → Nat
  | .candidate index _ _ => index
  | .typoCorrection index _ _ => index

def CandidateWord.commit : CandidateWord → Text
  | .candidate _ text _ => text
  | .typoCorrection _ _ convertedText => convertedText

/-- The session has under the row's index what the row shows. Beyond 32 bits an index says
nothing. -/
def CandidateWord.Stands (session : SessionState) : CandidateWord → Prop
  | .candidate index text _ => index < u32Max →
      ∃ candidate, session.displayCandidates[index]? = some candidate ∧ candidate.text = text
  | .typoCorrection index correctedInput convertedText =>
      session.typoCorrections[index]? = some ⟨correctedInput, convertedText⟩

def CandidateWord.payload : CandidateWord → Payload
  | .candidate index _ _ => .selectCandidate index
  | .typoCorrection index _ _ => .selectTypoCorrection index

def BeanKeyState.selectable (state : BeanKeyState) : CandidateWord → Bool
  | .candidate index _ _ => index ∈ state.candidateIndices
  | .typoCorrection index _ _ => index < state.typoCandidates.length

/-- What the daemon answers to the selection of a row, it commits the text of the row. -/
theorem CandidateWord.Stands.commits {config : EngineConfig} {session : SessionState}
    {word : CandidateWord} {requestId : Nat} (h : word.Stands session) (services : Services)
    (hstep : session.InStep config) (hnumber : session.lastRequestId < requestId)
    (hindex : word.index < u32Max) :
    let answer := (handleMessage config services (some session) requestId (some word.payload)).1
    (services.Succeed → ∃ response, answer = .stateResponse response) ∧
      ∀ response, answer = .stateResponse response → response.commit = word.commit := by
  cases word with
  | candidate index text =>
    obtain ⟨candidate, hcandidate, rfl⟩ := h hindex
    exact handleMessage_select hstep hnumber hcandidate
  | typoCorrection index correctedInput convertedText =>
    obtain ⟨answer, hanswer, hcommit⟩ := handleMessage_selectTypo config services hnumber h
    refine ⟨fun _ => ⟨answer, hanswer⟩, fun response hresponse => ?_⟩
    cases hanswer.symm.trans hresponse
    exact hcommit

def InputContext.commits (inputContext : InputContext) (text : Text) : List Text :=
  if text = [] then inputContext.committed else inputContext.committed ++ [text]

namespace Context
variable {config : EngineConfig} (outside : Nat → Outside) {context : Context} {era : Nat}
  {others : String → Option SessionState}

theorem Live.stands (hlive : context.Live) (h : context.Sound config era others)
    {list : CandidateList} (hlist : list ∈ context.state.inputContext.panel.candidateList)
    {word : CandidateWord} (hword : word ∈ list.words) :
    ∃ session, context.engine.sessions context.state.sessionId = some session ∧
      context.state.Agrees session ∧ word.Stands session := by
  obtain ⟨session, hsession, hagrees⟩ := hlive.session h
  refine ⟨session, hsession, hagrees, ?_⟩
  by_cases htypos : context.state.typoCandidates = []
  · obtain ⟨shown, hshown, rfl⟩ := h.tidy.candidates htypos list hlist word hword
    obtain ⟨index, candidate, hcandidate, htext, hindex⟩ := hagrees.shown.listed shown hshown
    intro hlt
    refine ⟨candidate, ?_, htext.symm⟩
    rwa [hindex, min_eq_left (by omega)]
  · obtain ⟨index, candidate, hcandidate, rfl⟩ := h.tidy.typos htypos list hlist word hword
    show session.typoCorrections[index]? = some candidate
    rw [hagrees.typos htypos, hcandidate]

theorem Live.start_same (hlive : context.Live) :
    context.start config outside = (true, context) := by
  have hfresh : context.invalidateStaleSession = context := by
    unfold invalidateStaleSession
    rw [if_neg]
    exact fun hstale => not_live_of_stale hstale.2 hlive
  unfold Context.start
  rw [hfresh, if_pos hlive.started]

theorem invalidateStaleSession_committed (context : Context) :
    context.invalidateStaleSession.state.inputContext.committed =
      context.state.inputContext.committed := by
  unfold invalidateStaleSession
  split <;> rfl

theorem invalidateStaleSession_stopped (hdead : ¬ context.Live) :
    context.invalidateStaleSession.state.started = false := by
  unfold invalidateStaleSession
  split
  · rfl
  · next hfresh =>
    by_contra hstarted
    rw [Bool.not_eq_false] at hstarted
    simp only [hstarted, true_and, not_or, not_not] at hfresh
    exact hdead ⟨hstarted, by simpa using hfresh.2, hfresh.1⟩

/-- Where a new session has to be started, nothing is committed and there is nothing to select. -/
theorem Sound.start_fresh (h : context.Sound config era others) (hdead : ¬ context.Live) :
    let after := (context.start config outside).2.state
    after.inputContext.committed = context.state.inputContext.committed ∧
      after.candidateIndices = [] ∧ after.typoCandidates = [] := by
  have hcurrent := h.invalidateStaleSession
  have hcommitted := invalidateStaleSession_committed context
  have hstopped := invalidateStaleSession_stopped hdead
  unfold Context.start
  generalize context.invalidateStaleSession = current at hcurrent hstopped hcommitted ⊢
  rw [← hcommitted]
  dsimp only
  rw [if_neg (by simp [hstopped])]
  have hconnect := hcurrent.ensureConnected outside hstopped (BeanKeyState.lease_clearUi hstopped)
    BeanKeyState.tidy_clearUi
  have hconnected := BeanKeyEngine.ensureConnected_connected outside current.engine
  generalize current.engine.ensureConnected outside = ensured at hconnect hconnected ⊢
  obtain ⟨connected, engine⟩ := ensured
  dsimp only at *
  cases connected with
  | false => exact ⟨rfl, rfl, rfl⟩
  | true =>
    have hsession := (hconnect.startSession outside hstopped (hconnected rfl)
      ⟨.unspecified, some (engine.surroundingText outside), .unspecified, []⟩).2
    rw [if_pos rfl]
    split
    · next response hresponse =>
      obtain ⟨⟨hempty, hcommit⟩, -⟩ := hsession response hresponse
      simp [BeanKeyState.apply, hempty, hcommit]
      rfl
    · exact ⟨rfl, rfl, rfl⟩

theorem Sound.whenStarted_dead (h : context.Sound config era others) (hdead : ¬ context.Live)
    {valid : BeanKeyState → Bool} {next : Context → Bool × Context}
    (hvalid : ∀ state : BeanKeyState, state.candidateIndices = [] → state.typoCandidates = [] →
      valid state = false) :
    (context.whenStarted config outside valid next).2.state.inputContext.committed =
      context.state.inputContext.committed := by
  obtain ⟨hcommitted, hindices, htypos⟩ := h.start_fresh outside hdead
  unfold Context.whenStarted
  generalize context.start config outside = started at hcommitted hindices htypos ⊢
  dsimp only at *
  rw [hvalid _ hindices htypos, if_neg (by simp)]
  exact hcommitted

/-- The state of a session after an answer, as the input context sees it. -/
theorem Live.send_committed (hlive : context.Live) (h : context.Sound config era others)
    (payload : Payload) (hasks : Asks context.state payload) {text : Text}
    (hcommits : ∀ services session response,
      context.engine.sessions context.state.sessionId = some session →
      (handleMessage config services (some session) context.state.nextRequestId
        (some payload)).1 = .stateResponse response → response.commit = text) :
    let after := (context.send config outside payload).2.state.inputContext.committed
    after = context.state.inputContext.committed ∨
      after = context.state.inputContext.commits text := by
  have hcases := hlive.request_cases outside h payload hasks.2
  unfold Context.send
  dsimp only at hcases ⊢
  generalize context.request config outside payload = after at hcases ⊢
  obtain ⟨answer, asked⟩ := after
  obtain ⟨-, -, hstate, hcases⟩ := hcases
  dsimp only at *
  have hkept : asked.failSession.state.inputContext.committed =
      context.state.inputContext.committed := by
    rw [show asked.failSession.state = asked.state.dropSession from rfl, hstate]
    rfl
  rcases hcases with ⟨rfl, -⟩ | ⟨services, session, hsession, -, -, rfl, -⟩
  · exact .inl hkept
  · split
    · next response hresponse =>
      have htext := hcommits services session response hsession (Option.some.inj hresponse)
      right
      simp [BeanKeyState.apply, InputContext.commits, hstate, htext]
    · exact .inl hkept

theorem Live.whenStarted (hlive : context.Live) (valid : BeanKeyState → Bool)
    (next : Context → Bool × Context) :
    context.whenStarted config outside valid next =
      if valid context.state then next context else (false, context.failSession) := by
  simp [Context.whenStarted, hlive.start_same]

theorem Live.request_delivered (hlive : context.Live) (payload : Payload)
    (hdelivered : (outside context.engine.time).reaches ∧ (outside context.engine.time).returns)
    {session : SessionState}
    (hsession : context.engine.sessions context.state.sessionId = some session) :
    (context.request config outside payload).1 =
      some (handleMessage config (outside context.engine.time).services (some session)
        context.state.nextRequestId (some payload)).1 := by
  simp [Context.request, BeanKeyEngine.request, hlive.connected, hdelivered.1, hdelivered.2,
    handle_fst, hsession]

theorem Live.send_delivered (hlive : context.Live) (payload : Payload)
    (hdelivered : (outside context.engine.time).reaches ∧ (outside context.engine.time).returns)
    {session : SessionState}
    (hsession : context.engine.sessions context.state.sessionId = some session)
    {response : StateResponse}
    (hresponse : (handleMessage config (outside context.engine.time).services (some session)
      context.state.nextRequestId (some payload)).1 = .stateResponse response) :
    context.send config outside payload =
      (response.consumed,
        { (context.request config outside payload).2 with
          state := (context.request config outside payload).2.state.apply response }) := by
  unfold Context.send
  have hrequest : (context.request config outside payload).1 = some (.stateResponse response) :=
    (hlive.request_delivered outside payload hdelivered hsession).trans (congrArg some hresponse)
  dsimp only
  rw [hrequest]

/-! ### Rows -/

theorem selectable_asks {state : BeanKeyState} {word : CandidateWord}
    (h : state.selectable word = true) : Asks state word.payload := by
  cases word with
  | candidate index =>
    exact ⟨Payload.noConfusion, fun _ hagrees => hagrees.indices index (of_decide_eq_true h)⟩
  | typoCorrection index =>
    refine ⟨Payload.noConfusion, fun session hagrees => ?_⟩
    have hlt : index < state.typoCandidates.length := of_decide_eq_true h
    have hne : state.typoCandidates ≠ [] := List.ne_nil_of_length_pos (by omega)
    show index < session.typoCorrections.length
    rw [hagrees.typos hne]
    exact hlt

theorem Live.select (hlive : context.Live) (word : CandidateWord) :
    context.select config outside word =
      if context.state.selectable word then context.send config outside word.payload
      else (false, context.failSession) := by
  cases word with
  | candidate index =>
    exact hlive.whenStarted outside (fun state => index ∈ state.candidateIndices)
      fun context => context.send config outside (.selectCandidate index)
  | typoCorrection index =>
    exact hlive.whenStarted outside (fun state => index < state.typoCandidates.length)
      fun context => context.send config outside (.selectTypoCorrection index)

theorem Sound.selectable (h : context.Sound config era others)
    {list : CandidateList} (hlist : list ∈ context.state.inputContext.panel.candidateList)
    {word : CandidateWord} (hword : word ∈ list.words) : context.state.selectable word = true := by
  by_cases htypos : context.state.typoCandidates = []
  · obtain ⟨shown, hshown, rfl⟩ := h.tidy.candidates htypos list hlist word hword
    refine decide_eq_true ?_
    rw [h.tidy.indices htypos]
    exact List.mem_map_of_mem hshown
  · obtain ⟨index, candidate, hcandidate, rfl⟩ := h.tidy.typos htypos list hlist word hword
    exact decide_eq_true (List.getElem?_eq_some_iff.mp hcandidate).1

/-- A row that is shown commits its own text or, where something fails, nothing. -/
theorem Sound.select_commits (h : context.Sound config era others) {list : CandidateList}
    (hlist : list ∈ context.state.inputContext.panel.candidateList) {word : CandidateWord}
    (hword : word ∈ list.words) (hindex : word.index < u32Max) :
    let after := (context.select config outside word).2.state.inputContext.committed
    after = context.state.inputContext.committed ∨
      after = context.state.inputContext.commits word.commit := by
  by_cases hlive : context.Live
  · obtain ⟨session, hsession, hagrees, hstands⟩ := hlive.stands h hlist hword
    rw [hlive.select]
    split
    · next hvalid =>
      refine hlive.send_committed outside h _ (selectable_asks hvalid) ?_
      intro services held response hheld
      rw [hsession] at hheld
      cases hheld
      exact (hstands.commits services (h.engine.inStep _ _ hsession) hagrees.number hindex).2
        response
    · exact .inl rfl
  · left
    cases word with
    | candidate index => exact h.whenStarted_dead outside hlive (by simp_all)
    | typoCorrection index => exact h.whenStarted_dead outside hlive (by simp_all)

theorem Live.select_delivered (hlive : context.Live) (h : context.Sound config era others)
    {list : CandidateList} (hlist : list ∈ context.state.inputContext.panel.candidateList)
    {word : CandidateWord} (hword : word ∈ list.words) (hindex : word.index < u32Max)
    (hdelivered : (outside context.engine.time).reaches ∧ (outside context.engine.time).returns)
    (hservices : (outside context.engine.time).services.Succeed) :
    (context.select config outside word).2.state.inputContext.committed =
      context.state.inputContext.commits word.commit := by
  obtain ⟨session, hsession, hagrees, hstands⟩ := hlive.stands h hlist hword
  obtain ⟨hanswers, hcommits⟩ := hstands.commits (outside context.engine.time).services
    (h.engine.inStep _ _ hsession) hagrees.number hindex
  obtain ⟨response, hresponse⟩ := hanswers hservices
  rw [hlive.select, if_pos (h.selectable hlist hword),
    hlive.send_delivered outside _ hdelivered hsession hresponse]
  simp [BeanKeyState.apply, InputContext.commits, hcommits response hresponse, Context.request]

/-- Whatever comes of it, a reset leaves no connection. -/
theorem Live.reset_disconnects (hlive : context.Live) (h : context.Sound config era others) :
    (context.reset config outside).engine.connected = false := by
  have hfresh : context.invalidateStaleSession = context := by
    unfold invalidateStaleSession
    rw [if_neg]
    exact fun hstale => not_live_of_stale hstale.2 hlive
  have hcases := hlive.request_cases outside h .resetSession fun _ _ => trivial
  unfold Context.reset
  rw [hfresh]
  dsimp only at hcases ⊢
  rw [if_pos hlive.started]
  unfold Context.send
  dsimp only
  generalize context.request config outside .resetSession = after at hcases ⊢
  obtain ⟨answer, asked⟩ := after
  obtain ⟨-, -, -, hcases⟩ := hcases
  dsimp only at *
  rcases hcases with ⟨rfl, -⟩ | ⟨services, session, -, hagrees, -, rfl, -⟩
  · rfl
  · -- The engine answers a reset with a state that consumed nothing.
    obtain ⟨response, hresponse, hconsumed⟩ := handleMessage_reset config services hagrees.number
    rw [hresponse]
    simp only [hconsumed]
    rfl

end Context

/-! ### Over runs -/

section
variable {Name : Type} [DecidableEq Name] (config : EngineConfig) (outside : Nat → Outside)
  (runtimeRoot learningDirectory : Text)

theorem kanaAddon_list :
    ∃ list ∈ (kanaAddon.context true).state.inputContext.panel.candidateList,
      list.words.map (fun word => (word.index, word.commit)) =
        [(0, ['か']), (1, ['カ']), (2, ['か', 'な']), (3, ['カ', 'ナ'])] := by
  have hrows : (kanaAddon.context true).state.inputContext.panel.candidateList.map
      (fun list => list.words.map fun word => (word.index, word.commit)) =
        some [(0, ['か']), (1, ['カ']), (2, ['か', 'な']), (3, ['カ', 'ナ'])] := by decide +kernel
  obtain ⟨list, hlist, hwords⟩ := Option.map_eq_some_iff.mp hrows
  exact ⟨list, hlist, hwords⟩

/-- After every run a candidate list has at most nine rows, its cursor is on the row of the selected
candidate, and while the session lives a row shows what the session has under its index. -/
theorem rows_shown (events : List (Event Name)) (name : Name) :
    let context := ((Addon.loaded runtimeRoot learningDirectory).run config outside events).context
      name
    context.state.Tidy ∧
      (context.Live → ∀ list ∈ context.state.inputContext.panel.candidateList,
        ∀ word ∈ list.words, ∃ session,
          context.engine.sessions context.state.sessionId = some session ∧
            word.Stands session) := by
  intro context
  have hsound := (Addon.run_sound config outside runtimeRoot learningDirectory events).context name
  refine ⟨hsound.tidy, fun hlive list hlist word hword => ?_⟩
  obtain ⟨session, hsession, -, hstands⟩ := hlive.stands hsound hlist hword
  exact ⟨session, hsession, hstands⟩

/-- The four rows of `かな`. -/
theorem rows_shown_kana :
    ∃ list ∈ (kanaAddon.context true).state.inputContext.panel.candidateList,
      list.words.length = 4 ∧ ∀ word ∈ list.words, ∃ session,
        kanaAddon.engine.sessions (kanaAddon.states true).sessionId = some session ∧
          word.Stands session := by
  obtain ⟨list, hlist, hwords⟩ := kanaAddon_list
  have hlive := kanaAddon_live true
  have hshown := rows_shown plainConfig (fun _ => answering) ['/'] ['/'] kanaEvents true
  refine ⟨list, hlist, by simpa using congrArg List.length hwords, ?_⟩
  unfold kanaAddon at *
  generalize (Addon.loaded ['/'] ['/']).run plainConfig (fun _ => answering) kanaEvents = addon at *
  exact hshown.2 hlive list hlist

/-- In every input context that a run leaves with a candidate list, a click on a row commits the
text of the row, or nothing where the session is gone or the daemon fails. -/
theorem row_commits (events : List (Event Name)) (name : Name) {list : CandidateList}
    {word : CandidateWord} :
    let context := ((Addon.loaded runtimeRoot learningDirectory).run config outside events).context
      name
    let now := outside context.engine.time
    let after := (context.select config outside word).2.state.inputContext.committed
    list ∈ context.state.inputContext.panel.candidateList → word ∈ list.words →
      word.index < u32Max →
      (after = context.state.inputContext.committed ∨
        after = context.state.inputContext.commits word.commit) ∧
      (context.Live → now.reaches ∧ now.returns → now.services.Succeed →
        after = context.state.inputContext.commits word.commit) := by
  intro context now after hlist hword hindex
  have hsound := (Addon.run_sound config outside runtimeRoot learningDirectory events).context name
  exact ⟨hsound.select_commits outside hlist hword hindex, fun hlive hdelivered hservices =>
    hlive.select_delivered outside hsound hlist hword hindex hdelivered hservices⟩

/-- A click on `カ`. -/
theorem row_commits_kana :
    ∃ word, ((kanaAddon.context true).select plainConfig (fun _ => answering)
      word).2.state.inputContext.committed = [['カ']] := by
  obtain ⟨list, hlist, hwords⟩ := kanaAddon_list
  have hrow := congrArg (·[1]?) hwords
  simp only [List.getElem?_map] at hrow
  obtain ⟨word, hword, hshown⟩ := Option.map_eq_some_iff.mp hrow
  obtain ⟨hindex, htext⟩ := Prod.mk.inj hshown
  have hnothing : (kanaAddon.context true).state.inputContext.committed = [] := by decide +kernel
  have hlive := kanaAddon_live true
  have hcommits := @row_commits _ _ plainConfig (fun _ => answering) ['/']
    ['/'] kanaEvents true list
    word
  refine ⟨word, ?_⟩
  unfold kanaAddon at *
  generalize (Addon.loaded ['/'] ['/']).run plainConfig (fun _ => answering) kanaEvents = addon at *
  have hcommitted := (hcommits hlist (List.mem_of_getElem? hword) (by rw [hindex]; decide)).2 hlive
    ⟨rfl, rfl⟩ kanaServices_succeed
  rw [hcommitted, InputContext.commits, htext, hnothing]
  rfl

/-- A reset of one live context ends the sessions of all, answered or not. The rows the others still
show commit nothing any more. -/
theorem reset_ends_all (events : List (Event Name)) (name : Name) :
    let addon := (Addon.loaded runtimeRoot learningDirectory).run config outside events
    let after := addon.step config outside (.operate name .reset)
    (addon.context name).Live →
      ∀ someone, ¬ (after.context someone).Live ∧ ∀ word,
        ((after.context someone).select config outside word).2.state.inputContext.committed =
          (after.states someone).inputContext.committed := by
  intro addon after hlive someone
  have hsound : addon.Sound config :=
    Addon.run_sound config outside runtimeRoot learningDirectory events
  have hclosed : after.engine.connected = false :=
    hlive.reset_disconnects outside (hsound.context name)
  have hdead : ¬ (after.context someone).Live := fun hlive => by
    simpa [hclosed] using hlive.connected.symm.trans (show _ = false from hclosed)
  refine ⟨hdead, fun word => ?_⟩
  have hafter := (hsound.step outside (.operate name .reset)).context someone
  cases word with
  | candidate index => exact hafter.whenStarted_dead outside hdead (by simp_all)
  | typoCorrection index => exact hafter.whenStarted_dead outside hdead (by simp_all)

/-- Entering and resetting another context ends the conversion of `かな`. -/
theorem reset_ends_all_kana :
    (kanaAddon.context true).Live ∧
      ¬ ((kanaAddon.step plainConfig (fun _ => answering) (.operate false .reset)).context
        true).Live :=
  ⟨kanaAddon_live true,
    (reset_ends_all plainConfig (fun _ => answering) ['/'] ['/'] kanaEvents false
    (kanaAddon_live false) true).1⟩

end

end BeanKey.Fcitx
