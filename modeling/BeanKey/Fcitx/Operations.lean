import BeanKey.Fcitx.Rows
import BeanKey.Fcitx.Sessions

/-! What an operation of one input context leaves behind, whatever the daemon and the connection do
meanwhile. -/
namespace BeanKey.Fcitx
open Engine Protocol Leasing

namespace Context
variable {config : EngineConfig} (outside : Nat → Outside) {context : Context} {era : Nat}
  {others : String → Option SessionState}

/-- A context between two calls, where `others` is what the other contexts had in `era`. -/
structure Sound (config : EngineConfig) (era : Nat) (others : String → Option SessionState)
    (context : Context) : Prop where
  engine : context.engine.Sound config
  shares : Shares context.engine.link era others context.state.lease
  tidy : context.state.Tidy

structure Live (context : Context) : Prop where
  started : context.state.started = true
  connected : context.engine.connected = true
  generation : context.state.connectionGeneration = context.engine.connectionGeneration

theorem Live.shares (hlive : context.Live) (h : context.Sound config era others) :
    Shares context.engine.link era others
      (some ⟨2 * context.state.connectionGeneration, context.state.sessionId,
        context.state.Agrees⟩) :=
  BeanKeyState.lease_started hlive.started ▸ h.shares

theorem Live.current (hlive : context.Live) {name : String} {knows : SessionState → Prop} :
    (⟨2 * context.state.connectionGeneration, name, knows⟩ : Lease String SessionState).Current
      context.engine.link := by
  simp [Lease.Current, BeanKeyEngine.link, hlive.connected, hlive.generation]

theorem Live.session (hlive : context.Live) (h : context.Sound config era others) :
    ∃ session, context.engine.sessions context.state.sessionId = some session ∧
      context.state.Agrees session :=
  (hlive.shares h).held _ rfl hlive.current

/-! ### Losing the session -/

/-- Once a connection is closed, it does not matter what had been asked of it. -/
theorem Sound.closed (h : context.Sound config era others)
    (hconnected : context.engine.connected = true) {after : Context}
    (hengine : after.engine.Sound config) (hclosed : after.engine.connected = false)
    (hgeneration : after.engine.connectionGeneration = context.engine.connectionGeneration)
    (hlease : after.state.lease = none) (htidy : after.state.Tidy) :
    after.Sound config era others where
  engine := hengine
  shares := by
    rw [hlease]
    refine h.shares.ended ?_ ?_
    · simp [BeanKeyEngine.link, hconnected, hclosed, hgeneration]
    · simp [BeanKeyEngine.link, hengine.closed hclosed, Sessions.fresh]
  tidy := htidy

/-- A started state that is not live holds a lease that is over. -/
theorem Sound.dropped (h : context.Sound config era others) (hover : ¬ context.Live)
    {state : BeanKeyState} (hlease : state.lease = none) (htidy : state.Tidy) :
    (⟨context.engine, state⟩ : Context).Sound config era others where
  engine := h.engine
  shares := by
    rw [hlease]
    by_cases hstarted : context.state.started = true
    · have hshares := h.shares
      rw [BeanKeyState.lease_started hstarted] at hshares
      refine hshares.dropped ?_
      intro hcurrent
      unfold Lease.Current BeanKeyEngine.link at hcurrent
      dsimp only at hcurrent
      split at hcurrent
      · next hconnected => exact hover ⟨hstarted, hconnected, by omega⟩
      · omega
    · have hnone : context.state.lease = none := if_neg hstarted
      exact hnone ▸ h.shares
  tidy := htidy

theorem Sound.failSession (h : context.Sound config era others) :
    context.failSession.Sound config era others := by
  cases hconnected : context.engine.connected with
  | true => exact h.closed hconnected h.engine.disconnect rfl rfl rfl BeanKeyState.tidy_clearUi
  | false =>
    have hsame : context.engine.disconnect = context.engine := by
      simp [BeanKeyEngine.disconnect, ← h.engine.closed hconnected, ← hconnected]
    have hover : ¬ context.Live := fun hlive => by simpa [hconnected] using hlive.connected
    unfold Context.failSession
    rw [hsame]
    exact h.dropped hover rfl BeanKeyState.tidy_clearUi

theorem not_live_of_stale
    (hstale : context.state.connectionGeneration ≠ context.engine.connectionGeneration ∨
      (!context.engine.connected) = true) : ¬ context.Live := by
  intro hlive
  cases hstale with
  | inl hgeneration => exact hgeneration hlive.generation
  | inr hclosed => simp [hlive.connected] at hclosed

theorem Sound.invalidateStaleSession (h : context.Sound config era others) :
    context.invalidateStaleSession.Sound config era others := by
  unfold Context.invalidateStaleSession
  split
  · next hstale =>
    exact h.dropped (not_live_of_stale hstale.2) rfl BeanKeyState.tidy_clearUi
  · exact h

theorem invalidateStaleSession_live (context : Context)
    (hstarted : context.invalidateStaleSession.state.started = true) :
    context.invalidateStaleSession.Live := by
  unfold Context.invalidateStaleSession at *
  split at hstarted
  · cases hstarted
  · next hfresh =>
    simp only [hstarted, true_and, not_or, not_not] at hfresh
    rw [if_neg (by simp [hfresh])]
    exact ⟨hstarted, by simpa using hfresh.2, hfresh.1⟩

/-! ### Asking the daemon -/

theorem Live.welcome (hlive : context.Live) (h : context.Sound config era others)
    {payload : Payload} (hfits : ∀ session, context.state.Agrees session → Fits session payload) :
    Welcome context.engine.sessions
      ⟨context.state.nextRequestId, context.state.sessionId, some payload⟩ := by
  obtain ⟨session, hsession, hagrees⟩ := hlive.session h
  exact (hfits session hagrees).welcome hsession hagrees.number

/-- What a live context asks of its session, and what becomes of the two. -/
theorem Live.request_cases (hlive : context.Live) (h : context.Sound config era others)
    (payload : Payload) (hfits : ∀ session, context.state.Agrees session → Fits session payload) :
    let after := context.request config outside payload
    after.2.engine.Sound config ∧
    after.2.engine.connectionGeneration = context.engine.connectionGeneration ∧
    after.2.state = { context.state with nextRequestId := context.state.nextRequestId + 1 } ∧
    (after.1 = none ∧ after.2.engine.connected = false ∨
      ∃ services session, context.engine.sessions context.state.sessionId = some session ∧
        context.state.Agrees session ∧ after.2.engine.connected = true ∧
        after.1 = some (handleMessage config services (some session)
          context.state.nextRequestId (some payload)).1 ∧
        after.2.engine.sessions = Function.update context.engine.sessions context.state.sessionId
          (handleMessage config services (some session)
            context.state.nextRequestId (some payload)).2) := by
  obtain ⟨session, hsession, hagrees⟩ := hlive.session h
  obtain ⟨number, hnumber, hname⟩ := h.engine.named _ _ hsession
  have hsound := h.engine.request outside (hlive.welcome h hfits) hnumber hname
  dsimp only [Context.request]
  rcases BeanKeyEngine.request_cases config outside
      ⟨context.state.nextRequestId, context.state.sessionId, some payload⟩ hlive.connected
    with ⟨handled, time, hlost⟩ | ⟨services, handled, time, hanswered⟩
  · rw [hlost] at hsound ⊢
    exact ⟨hsound, rfl, rfl, .inl ⟨rfl, rfl⟩⟩
  · rw [hanswered] at hsound ⊢
    refine ⟨hsound, rfl, rfl, .inr ⟨services, session, hsession, hagrees, hlive.connected, ?_, ?_⟩⟩
    · simp [handle_fst, hsession]
    · simp [handle_snd, hsession]

/-- The requests that are answered with a state, and do not end the session. -/
def Asks (state : BeanKeyState) (payload : Payload) : Prop :=
  payload ≠ .endSession ∧ ∀ session, state.Agrees session → Fits session payload

theorem Live.send (hlive : context.Live) (h : context.Sound config era others) (payload : Payload)
    (hasks : Asks context.state payload) :
    (context.send config outside payload).2.Sound config era others := by
  have hcases := hlive.request_cases outside h payload hasks.2
  unfold Context.send
  dsimp only at hcases ⊢
  generalize context.request config outside payload = after at hcases ⊢
  obtain ⟨answer, asked⟩ := after
  obtain ⟨hengine, hgeneration, hstate, hcases⟩ := hcases
  have hfail : asked.failSession.Sound config era others :=
    h.closed hlive.connected hengine.disconnect rfl hgeneration rfl BeanKeyState.tidy_clearUi
  dsimp only at *
  rcases hcases with ⟨rfl, -⟩ | ⟨services, session, hsession, hagrees, hconnected, rfl, hsessions⟩
  · exact hfail
  · split
    · next response hresponse =>
      obtain ⟨left, hleft, hnumber, hshows⟩ := handleMessage_state
        (h.engine.inStep _ _ hsession) hagrees.number (hasks.2 session hagrees) hasks.1
        (Option.some.inj hresponse)
      have hstarted : asked.state.started = true := by rw [hstate]; exact hlive.started
      refine ⟨hengine, ?_, BeanKeyState.apply_tidy hshows⟩
      rw [BeanKeyState.lease_started (by exact hstarted)]
      refine (hlive.shares h).updated hlive.current ?_ (hleft ▸ hsessions) ?_ ?_ ?_
      · simp [BeanKeyEngine.link, hconnected, hgeneration, hlive.connected]
      · simp [BeanKeyState.apply, hstate]
      · simp [BeanKeyState.apply, hstate]
      · refine BeanKeyState.apply_agrees ?_ hshows
        simp [hstate, hnumber]
    · exact hfail

theorem Live.send_live (hlive : context.Live) (h : context.Sound config era others)
    (payload : Payload) (hasks : Asks context.state payload)
    (hstarted : (context.send config outside payload).2.state.started = true) :
    (context.send config outside payload).2.Live := by
  have hcases := hlive.request_cases outside h payload hasks.2
  unfold Context.send at *
  dsimp only at hcases hstarted ⊢
  generalize context.request config outside payload = after at hcases hstarted ⊢
  obtain ⟨answer, asked⟩ := after
  obtain ⟨-, hgeneration, hstate, hcases⟩ := hcases
  dsimp only at *
  rcases hcases with ⟨rfl, -⟩ | ⟨services, session, -, -, hconnected, rfl, -⟩
  · cases hstarted
  · split at hstarted
    · refine ⟨hstarted, hconnected, ?_⟩
      rw [hgeneration, ← hlive.generation]
      simp [BeanKeyState.apply, hstate]
    · cases hstarted

/-! ### Starting -/

theorem Sound.ensureConnected (h : context.Sound config era others)
    (hstarted : context.state.started = false) {state : BeanKeyState}
    (hlease : state.lease = none) (htidy : state.Tidy) :
    (⟨(context.engine.ensureConnected outside).2, state⟩ : Context).Sound config era others := by
  have hnone : context.state.lease = none := by simp [BeanKeyState.lease, hstarted]
  have hshares := hnone ▸ h.shares
  obtain ⟨preparing, time, hafter⟩ := BeanKeyEngine.ensureConnected_cases outside context.engine
  cases hafter with
  | inl hsame =>
    rw [hsame]
    refine ⟨⟨h.engine.inStep, h.engine.named, h.engine.closed, h.engine.welcome⟩, ?_, htidy⟩
    rw [hlease]
    exact hshares
  | inr hconnect =>
    rw [hconnect]
    refine ⟨h.engine.fresh rfl rfl, ?_, htidy⟩
    rw [hlease]
    exact hshares.ended context.engine.connect_later fun _ => rfl

/-- The next session id is given away, and no session has it yet. -/
theorem Sound.opened (h : context.Sound config era others)
    (hstarted : context.state.started = false) : context.opened.Sound config era others where
  engine :=
    { inStep := h.engine.inStep
      named := by
        intro sessionId session hsession
        obtain ⟨number, hlt, hname⟩ := h.engine.named sessionId session hsession
        exact ⟨number, Nat.lt_succ_of_lt hlt, hname⟩
      closed := h.engine.closed
      welcome := h.engine.welcome }
  shares := by
    have hnone : context.state.lease = none := by simp [BeanKeyState.lease, hstarted]
    have hopened : context.opened.state.lease = none := by
      simp [BeanKeyState.lease, Context.opened, hstarted]
    rw [hopened]
    exact hnone ▸ h.shares
  tidy := ⟨h.tidy.candidates, h.tidy.typos, h.tidy.page, h.tidy.cursor, h.tidy.typoSelection,
    h.tidy.indices⟩

theorem Sound.startSession (h : context.Sound config era others)
    (hstarted : context.state.started = false) (hconnected : context.engine.connected = true)
    (start : StartSession) :
    let after := context.opened.request config outside (.startSession start)
    (∀ answer, (⟨after.2.engine.disconnect, { after.2.state with sessionId := answer }⟩ :
      Context).Sound config era others) ∧
    ∀ response, after.1 = some (.stateResponse response) →
      (response.candidates = [] ∧ response.commit = []) ∧
      (⟨after.2.engine, { after.2.state with started := true }.apply response⟩ :
        Context).Sound config era others ∧
      (⟨after.2.engine, { after.2.state with started := true }.apply response⟩ : Context).Live := by
  have hopened := h.opened hstarted
  have hfree : context.opened.engine.sessions context.opened.state.sessionId = none :=
    h.engine.free
  have hwelcome : Welcome context.opened.engine.sessions
      ⟨1, context.opened.state.sessionId, some (.startSession start)⟩ := hfree
  have hsound := hopened.engine.request outside hwelcome
    (Nat.lt_succ_self context.engine.nextSessionId) rfl
  have hopenedConnected : context.opened.engine.connected = true := hconnected
  have hcases := BeanKeyEngine.request_cases config outside
    ⟨1, context.opened.state.sessionId, some (.startSession start)⟩ hopenedConnected
  have hnone : context.opened.state.lease = none := by
    simp [BeanKeyState.lease, Context.opened, hstarted]
  dsimp only [Context.request]
  rw [show context.opened.state.nextRequestId = 1 from rfl]
  generalize context.opened.engine.request config outside
    ⟨1, context.opened.state.sessionId, some (.startSession start)⟩ = asked at hsound hcases ⊢
  refine ⟨fun answer => ?_, ?_⟩
  · refine h.closed hconnected hsound.disconnect rfl ?_
      (by simp [BeanKeyState.lease, Context.opened, hstarted])
      ⟨h.tidy.candidates, h.tidy.typos, h.tidy.page, h.tidy.cursor, h.tidy.typoSelection,
        h.tidy.indices⟩
    rcases hcases with ⟨handled, time, rfl⟩ | ⟨services, handled, time, rfl⟩ <;> rfl
  · intro response hresponse
    rcases hcases with ⟨handled, time, rfl⟩ | ⟨services, handled, time, rfl⟩
    · cases hresponse
    · simp only [handle_fst, hfree, Option.bind_some, Option.some.injEq] at hresponse
      obtain ⟨left, hleft, hnumber, hempty, hcommit⟩ := handleMessage_start hresponse
      have hshows : Shows left response := .of_empty hempty
      refine ⟨⟨hempty, hcommit⟩, ⟨hsound, ?_, BeanKeyState.apply_tidy hshows⟩,
        ⟨rfl, hconnected, rfl⟩⟩
      rw [BeanKeyState.lease_started rfl]
      refine (hnone ▸ hopened.shares).taken hfree ?_ ?_ ?_
        (BeanKeyState.apply_agrees (by simp [hnumber]) hshows)
      · simp [BeanKeyEngine.link]
      · rw [← hleft]
        simp [BeanKeyEngine.link, handle_snd, hfree, BeanKeyState.apply]
      · simp [Lease.Current, BeanKeyEngine.link, BeanKeyState.apply, Context.opened, hconnected]

theorem Sound.start (h : context.Sound config era others) :
    (context.start config outside).2.Sound config era others ∧
      ((context.start config outside).1 = true → (context.start config outside).2.Live) := by
  have hcurrent := h.invalidateStaleSession
  have hlive := invalidateStaleSession_live context
  unfold Context.start
  generalize context.invalidateStaleSession = current at hcurrent hlive ⊢
  dsimp only
  split
  · next hstarted => exact ⟨hcurrent, fun _ => hlive hstarted⟩
  · next hstarted =>
    rw [Bool.not_eq_true] at hstarted
    have hclear : current.state.clearUi.lease = none := BeanKeyState.lease_clearUi hstarted
    have hconnect := hcurrent.ensureConnected outside hstarted hclear
      BeanKeyState.tidy_clearUi
    have hconnected := BeanKeyEngine.ensureConnected_connected outside current.engine
    generalize current.engine.ensureConnected outside = ensured at hconnect hconnected ⊢
    obtain ⟨connected, engine⟩ := ensured
    dsimp only at *
    cases connected with
    | false => exact ⟨hconnect, fun hno => by cases hno⟩
    | true =>
      have hsession := hconnect.startSession outside hstarted (hconnected rfl)
        ⟨.unspecified, some (engine.surroundingText outside), .unspecified, []⟩
      rw [if_pos rfl]
      split
      · next response hresponse => exact ⟨(hsession.2 response hresponse).2.1,
          fun _ => (hsession.2 response hresponse).2.2⟩
      · exact ⟨hsession.1 "", fun hno => by cases hno⟩

theorem Sound.whenStarted (h : context.Sound config era others) {valid : BeanKeyState → Bool}
    {next : Context → Bool × Context}
    (hnext : ∀ context : Context, context.Sound config era others → context.Live →
      valid context.state = true → (next context).2.Sound config era others) :
    (context.whenStarted config outside valid next).2.Sound config era others := by
  obtain ⟨hsound, hlive⟩ := h.start outside
  unfold Context.whenStarted
  generalize context.start config outside = started at hsound hlive ⊢
  dsimp only
  split
  · next hvalid => exact hnext _ hsound (hlive hvalid.1) hvalid.2
  · exact hsound.failSession

/-! ### Every operation -/

theorem Sound.selectCandidate (h : context.Sound config era others) (index : Nat) :
    (context.selectCandidate config outside index).2.Sound config era others :=
  h.whenStarted outside fun _ hsound hlive hvalid => hlive.send outside hsound _
    ⟨Payload.noConfusion, fun _ hagrees => hagrees.indices index (of_decide_eq_true hvalid)⟩

theorem Sound.forgetCandidate (h : context.Sound config era others) (index : Nat) :
    (context.forgetCandidate config outside index).2.Sound config era others :=
  h.whenStarted outside fun _ hsound hlive hvalid => hlive.send outside hsound _
    ⟨Payload.noConfusion, fun _ hagrees => hagrees.indices index (of_decide_eq_true hvalid)⟩

/-- The typo list of a context is the one its session corrected last. -/
theorem Sound.selectTypoCorrection (h : context.Sound config era others) (index : Nat) :
    (context.selectTypoCorrection config outside index).2.Sound config era others := by
  refine h.whenStarted outside fun current hsound hlive hvalid => hlive.send outside hsound _
    ⟨Payload.noConfusion, fun session hagrees => ?_⟩
  have hlt : index < current.state.typoCandidates.length := of_decide_eq_true hvalid
  have hne : current.state.typoCandidates ≠ [] := List.ne_nil_of_length_pos (by omega)
  show index < session.typoCorrections.length
  rw [hagrees.typos hne]
  exact hlt

theorem Sound.resetLearning (h : context.Sound config era others) :
    (context.resetLearning config outside).2.Sound config era others :=
  h.whenStarted outside fun _ hsound hlive _ => hlive.send outside hsound _
    ⟨Payload.noConfusion, fun _ _ => trivial⟩

theorem Sound.requestTypoCorrections (h : context.Sound config era others) :
    (context.requestTypoCorrections config outside).2.Sound config era others := by
  refine h.whenStarted outside fun current hsound hlive _ => ?_
  have hcases := hlive.request_cases outside hsound .requestTypoCorrections
    fun _ _ => trivial
  dsimp only at hcases ⊢
  generalize current.request config outside .requestTypoCorrections = after at hcases ⊢
  obtain ⟨answer, asked⟩ := after
  obtain ⟨hengine, hgeneration, hstate, hcases⟩ := hcases
  have hfail : asked.failSession.Sound config era others :=
    hsound.closed hlive.connected hengine.disconnect rfl hgeneration rfl
      BeanKeyState.tidy_clearUi
  dsimp only at *
  rcases hcases with ⟨rfl, -⟩ | ⟨services, session, hsession, hagrees, hconnected, rfl, hsessions⟩
  · exact hfail
  · split
    · next candidates hcandidates =>
      rw [handleMessage_typos hagrees.number (Option.some.inj hcandidates)] at hsessions
      have hshows : Shows session asked.state.normalState := by rw [hstate]; exact hagrees.shown
      have hnumber : current.state.nextRequestId < asked.state.nextRequestId := by
        rw [hstate]
        exact Nat.lt_succ_self _
      have hstarted : asked.state.started = true := by rw [hstate]; exact hlive.started
      refine ⟨hengine, ?_, BeanKeyState.showTypoCorrections_tidy hshows candidates⟩
      have hafter : (asked.state.showTypoCorrections candidates).started = true ∧
          (asked.state.showTypoCorrections candidates).sessionId = current.state.sessionId ∧
          (asked.state.showTypoCorrections candidates).connectionGeneration =
            current.state.connectionGeneration := by
        unfold BeanKeyState.showTypoCorrections
        split <;> simp [BeanKeyState.apply, BeanKeyState.displayTypoCorrections, hstate,
          hlive.started]
      rw [BeanKeyState.lease_started hafter.1]
      refine (hlive.shares hsound).updated hlive.current ?_ hsessions ?_ hafter.2.1 ?_
      · simp [BeanKeyEngine.link, hconnected, hgeneration, hlive.connected]
      · rw [hafter.2.2]
      · unfold BeanKeyState.showTypoCorrections
        split
        · exact BeanKeyState.apply_agrees hnumber (hshows.congr rfl)
        · exact ⟨hnumber, hshows.congr rfl, fun _ => rfl, fun _ hnone => by cases hnone⟩
    · exact hfail

/-- The local moves of a state keep what it knows of its session. -/
theorem Live.renewed (hlive : context.Live) (h : context.Sound config era others)
    {state : BeanKeyState} (hstarted : state.started = true)
    (hgeneration : state.connectionGeneration = context.state.connectionGeneration)
    (hsessionId : state.sessionId = context.state.sessionId)
    (hagrees : ∀ session, context.state.Agrees session → state.Agrees session)
    (htidy : state.Tidy) : (⟨context.engine, state⟩ : Context).Sound config era others where
  engine := h.engine
  shares := by
    rw [BeanKeyState.lease_started hstarted]
    exact (hlive.shares h).renewed (by rw [hgeneration]) hsessionId hagrees
  tidy := htidy

theorem Sound.focusIn (h : context.Sound config era others) :
    (context.focusIn config outside).2.Sound config era others := by
  obtain ⟨hsound, hlive⟩ := h.start outside
  unfold Context.focusIn
  generalize context.start config outside = started at hsound hlive ⊢
  dsimp only
  split
  · next hstarted =>
    dsimp only
    split
    · exact hsound
    · have hlive := hlive hstarted
      obtain ⟨session, -, hagrees⟩ := hlive.session hsound
      exact hlive.renewed hsound hlive.started rfl rfl
        (fun session hagrees => BeanKeyState.apply_agrees hagrees.number hagrees.shown)
        (BeanKeyState.apply_tidy hagrees.shown)
  · exact hsound

/-- The last message of a session, whatever the answer: the daemon does not hold it any more. -/
theorem Live.endSession (hlive : context.Live) (h : context.Sound config era others) :
    (⟨(context.request config outside .endSession).2.engine,
      (context.request config outside .endSession).2.state.dropSession⟩ :
        Context).Sound config era others := by
  have hcases := hlive.request_cases outside h .endSession
    fun _ _ => trivial
  dsimp only at hcases
  generalize context.request config outside .endSession = after at hcases ⊢
  obtain ⟨answer, asked⟩ := after
  obtain ⟨hengine, hgeneration, hstate, hcases⟩ := hcases
  dsimp only at *
  rcases hcases with ⟨rfl, hclosed⟩ | ⟨services, session, -, hagrees, hconnected, rfl, hsessions⟩
  · exact h.closed hlive.connected hengine hclosed hgeneration rfl BeanKeyState.tidy_clearUi
  · refine ⟨hengine, ?_, BeanKeyState.tidy_clearUi⟩
    rw [handleMessage_end hagrees.number] at hsessions
    refine (hlive.shares h).returned hlive.current ?_ hsessions
    simp [BeanKeyEngine.link, hconnected, hgeneration, hlive.connected]

theorem Sound.focusOut (h : context.Sound config era others) (commitComposition : Bool) :
    (context.focusOut config outside commitComposition).Sound config era others := by
  have hcurrent := h.invalidateStaleSession
  have hlive := invalidateStaleSession_live context
  unfold Context.focusOut
  generalize context.invalidateStaleSession = current at hcurrent hlive ⊢
  dsimp only
  -- Whether the composition was committed or not, a started state is still a live one.
  have hcommitted : ∀ after : Context, (after.Sound config era others ∧
      (after.state.started = true → after.Live)) →
      (⟨(if after.state.started = true ∧ after.engine.connected = true then
          (after.request config outside .endSession).2 else after).engine,
        (if after.state.started = true ∧ after.engine.connected = true then
          (after.request config outside .endSession).2 else after).state.dropSession⟩ :
        Context).Sound config era others := by
    intro after hafter
    split
    · next hopen => exact (hafter.2 hopen.1).endSession outside hafter.1
    · next hshut =>
      refine hafter.1.dropped (fun hlive => hshut ⟨hlive.started, hlive.connected⟩) rfl
        BeanKeyState.tidy_clearUi
  split
  · next hcommit =>
    have hasks : Asks current.state .commitComposition :=
      ⟨Payload.noConfusion, fun _ _ => trivial⟩
    exact hcommitted _ ⟨(hlive hcommit.2).send outside hcurrent _ hasks,
      (hlive hcommit.2).send_live outside hcurrent _ hasks⟩
  · exact hcommitted current ⟨hcurrent, hlive⟩

theorem Sound.reset (h : context.Sound config era others) :
    (context.reset config outside).Sound config era others := by
  have hcurrent := h.invalidateStaleSession
  have hlive := invalidateStaleSession_live context
  unfold Context.reset
  generalize context.invalidateStaleSession = current at hcurrent hlive ⊢
  dsimp only
  split
  · next hstarted =>
    have hsound := (hlive hstarted).send outside hcurrent .resetSession
      ⟨Payload.noConfusion, fun _ _ => trivial⟩
    split
    · exact hsound
    · exact hsound.failSession
  · next hstarted =>
    rw [Bool.not_eq_true] at hstarted
    refine hcurrent.dropped (fun hlive => by simpa [hstarted] using hlive.started)
      (BeanKeyState.lease_clearUi hstarted) BeanKeyState.tidy_clearUi

theorem Live.sendKey (hlive : context.Live) (h : context.Sound config era others)
    (key : KeyEvent) : (context.sendKey config outside key).2.Sound config era others :=
  hlive.send outside h _ ⟨Payload.noConfusion, fun _ _ => trivial⟩

theorem Live.moveTypoSelection (hlive : context.Live) (h : context.Sound config era others)
    (hne : context.state.typoCandidates ≠ []) (forward : Bool) :
    (⟨context.engine, context.state.moveTypoSelection forward⟩ :
      Context).Sound config era others :=
  hlive.renewed h hlive.started rfl rfl
    (fun _ hagrees => ⟨hagrees.number, hagrees.shown, hagrees.typos, hagrees.indices⟩)
    (BeanKeyState.moveTypoSelection_tidy hne forward)

theorem Live.typoKey (hlive : context.Live) (h : context.Sound config era others)
    (hne : context.state.typoCandidates ≠ []) (key : KeyEvent) :
    (context.typoKey config outside key).2.Sound config era others := by
  unfold Context.typoKey
  split
  · exact hlive.moveTypoSelection h hne true
  · exact hlive.moveTypoSelection h hne false
  · exact hlive.moveTypoSelection h hne _
  · exact h.selectTypoCorrection outside _
  · exact hlive.sendKey outside h key

theorem Sound.processKey (h : context.Sound config era others) (isRelease : Bool) (key : KeyEvent)
    (selection : Option Nat) :
    (context.processKey config outside isRelease key selection).2.Sound config era others := by
  unfold Context.processKey
  split
  · exact h
  · refine h.whenStarted outside fun current hsound hlive _ => ?_
    split
    · exact hsound.selectTypoCorrection outside _
    · split
      · exact hsound.selectCandidate outside _
      · split
        · exact hlive.sendKey outside hsound key
        · next hne => exact hlive.typoKey outside hsound hne key

theorem Sound.perform (h : context.Sound config era others) (operation : Operation) :
    (context.perform config outside operation).Sound config era others := by
  cases operation with
  | focusIn => exact h.focusIn outside
  | focusOut commitComposition => exact h.focusOut outside commitComposition
  | processKey isRelease key selection => exact h.processKey outside isRelease key selection
  | select word =>
    cases word with
    | candidate index => exact h.selectCandidate outside index
    | typoCorrection index => exact h.selectTypoCorrection outside index
  | forgetCandidate index => exact h.forgetCandidate outside index
  | requestTypoCorrections => exact h.requestTypoCorrections outside
  | resetLearning => exact h.resetLearning outside
  | reset => exact h.reset outside

end Context

end BeanKey.Fcitx
