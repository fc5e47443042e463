import BeanKey.Macos.Sound

/-! What an operation of one input session leaves behind, whatever the daemon and the connection do
meanwhile. -/
namespace BeanKey.Macos
open Engine Protocol Leasing

namespace Context
variable {config : EngineConfig} {uuid : Nat → String} (outside : Nat → Outside) {context : Context}
  {era : Nat} {others : String → Option SessionState}

/-! ### Starting -/

structure Fresh (context : Context) : Prop where
  live : context.Live
  next : context.session.nextRequest = 2
  panel : context.session.panel = .cleared
  held : ∃ held, context.connection.sessions context.session.sessionId = some held ∧
    held.lastRequestId = 1 ∧ held.displayCandidates = []

/-- The first message of a session: the connection is closed, or the session starts. -/
theorem Sound.startSession (h : context.Sound config uuid era others) (hunique : Unique uuid)
    (hclient : context.session.textClient = true) (hname : context.session.sessionId = "")
    (hready : context.connection.ready = true)
    (start : StartSession) :
    let after := (context.opened uuid).request config outside (.startSession start)
    after.2.fail.Sound config uuid era others ∧
    ∀ state, after.1 = some (.stateResponse state) →
      (⟨after.2.connection, { after.2.session with state }⟩ : Context).Sound config
        uuid era others ∧
      (⟨after.2.connection, { after.2.session with state }⟩ : Context).Fresh := by
  have hfree := h.connection.free hunique
  obtain ⟨hpanel, hstate⟩ := h.tidy.idle hname
  have hopened : (context.opened uuid).connection.Sound config uuid := by
    refine ⟨h.connection.inStep, ?_, h.connection.closed, h.connection.prepared,
      h.connection.expected⟩
    intro sessionId session hsession
    obtain ⟨number, hlt, hnamed⟩ := h.connection.named sessionId session hsession
    exact ⟨number, Nat.lt_succ_of_lt hlt, hnamed⟩
  have htidy (state : StateResponse) (hpreedit : state.preedit = []) (hinside : Inside state) :
      ({ (context.opened uuid).session with nextRequest := 2, state } : InputSession).Tidy := by
    refine ⟨?_, displays_of_blank (h.tidy.shown.blank (by rw [hstate])) hpreedit hinside,
      fun _ => hclient, fun hno => absurd hno (hunique.named _)⟩
    show context.session.panel.Tidy state
    rw [hpanel]
    exact CandidatePanel.tidy_cleared state
  have hwelcome : Expected (context.opened uuid).connection.sessions
      ⟨1, uuid context.connection.issued, some (.startSession start)⟩ := .inl hfree
  have hsound := hopened.request outside hwelcome (Nat.lt_succ_self context.connection.issued) rfl
  have hcases := DaemonConnection.request_cases config outside
    ⟨1, uuid context.connection.issued, some (.startSession start)⟩
    (show (context.opened uuid).connection.ready = true from hready)
  dsimp only [Context.request]
  rw [show (context.opened uuid).session.nextRequest = 1 from rfl,
    show (context.opened uuid).session.sessionId = uuid context.connection.issued from rfl]
  generalize (context.opened uuid).connection.request config outside
    ⟨1, uuid context.connection.issued, some (.startSession start)⟩ = asked at hsound hcases ⊢
  constructor
  · refine h.lost hsound ?_ ?_
    · rcases hcases
        with ⟨sessions, handled, time, rfl⟩ | ⟨services, handled, time, answer, -, -, rfl⟩
      · exact Nat.le_succ _
      · exact le_rfl
    · exact htidy context.session.state (by rw [hstate]) (by rw [hstate]; exact .of_empty rfl rfl)
  · intro state hanswer
    rcases hcases
      with ⟨sessions, handled, time, rfl⟩ | ⟨services, handled, time, answer, -, hhandled,
      rfl⟩
    · cases hanswer
    · cases hanswer
      have hsession : (context.opened uuid).connection.sessions (uuid context.connection.issued) =
          none := hfree
      rw [handle_fst, hsession, Option.some.injEq] at hhandled
      obtain ⟨hpreedit, left, hleft, hnumber, hnone, hshows⟩ := handleMessage_started hhandled
      have hheld : (handle config services (context.opened uuid).connection.sessions
          ⟨1, uuid context.connection.issued, some (.startSession start)⟩).2 =
          Function.update context.connection.sessions (uuid context.connection.issued)
            (some left) := by
        rw [handle_snd, hsession, hleft]
        rfl
      refine ⟨⟨hsound, ?_, htidy state hpreedit (handleMessage_inside hhandled)⟩,
        ⟨?_, rfl⟩, rfl, hpanel,
        left, ?_, hnumber, hnone⟩
      · have hshares := h.shares
        rw [InputSession.lease_idle hname] at hshares
        rw [InputSession.lease_named (hunique.named _)]
        refine hshares.taken hfree rfl hheld rfl ⟨?_, hshows, ?_, ?_⟩
        · rw [hnumber]
          exact Nat.lt_succ_self 1
        · exact fun hne => absurd (congrArg CandidatePanel.typoCandidates hpanel) hne
        · intro _ index hindex
          rw [show (context.opened uuid).session.panel = .cleared from hpanel] at hindex
          cases hindex
      · exact hunique.named _
      · dsimp only
        rw [hheld]
        exact Function.update_self _ _ _

theorem Sound.start (h : context.Sound config uuid era others) (hunique : Unique uuid)
    (hclient : context.session.textClient = true) :
    (context.start config uuid outside).2.Sound config uuid era others ∧
      ((context.start config uuid outside).1 = true →
        context.Live ∧ (context.start config uuid outside).2 = context ∨
          ¬ context.Live ∧ (context.start config uuid outside).2.Fresh) := by
  have hcurrent := h.current
  have hcases := current_cases context
  rw [← (current_textClient context).1] at hclient
  unfold Context.start
  generalize context.current = current at hcurrent hcases hclient ⊢
  dsimp only
  rcases hcases with ⟨rfl, hlive⟩ | ⟨hname, hdead⟩
  · rw [if_pos hlive.named]
    exact ⟨h, fun _ => .inl ⟨hlive, rfl⟩⟩
  · rw [if_neg (by simpa using hname)]
    split
    · refine ⟨⟨hcurrent.connection.prepare, ?_, hcurrent.tidy⟩, fun hno => by cases hno⟩
      rw [DaemonConnection.link_prepare]
      exact hcurrent.shares
    · next hready =>
      have hsession := hcurrent.startSession outside hunique hclient hname (by simpa using hready)
        ⟨.unspecified, some (current.surroundingText outside), .unspecified, []⟩
      split
      · next state hstate =>
        obtain ⟨hsound, hfresh⟩ := hsession.2 state hstate
        exact ⟨hsound, fun _ => .inr ⟨hdead, hfresh⟩⟩
      · exact ⟨hsession.1, fun hno => by cases hno⟩

theorem start_idle (config : EngineConfig) (uuid : Nat → String) (context : Context)
    (h : (context.start config uuid outside).1 = false) :
    (context.start config uuid outside).2.session.sessionId = "" := by
  unfold Context.start at *
  generalize context.current = current at h ⊢
  dsimp only at *
  split at h
  · cases h
  · next hname =>
    rw [if_neg hname]
    split at h
    · next hready =>
      rw [if_pos hready]
      exact not_not.mp hname
    · next hready =>
      rw [if_neg hready]
      split at h
      · cases h
      · rfl

theorem Sound.whenStarted (h : context.Sound config uuid era others) (hunique : Unique uuid)
    {next : Context → Bool × Context}
    (hlive : context.Live → (next context).2.Sound config uuid era others)
    (hfresh : ∀ after : Context, after.Sound config uuid era others → after.Fresh →
      (next after).2.Sound config uuid era others) :
    (context.whenStarted config uuid outside next).2.Sound config uuid era others := by
  unfold Context.whenStarted
  split
  · next hclient =>
    obtain ⟨hsound, hcases⟩ := h.start outside hunique hclient
    generalize context.start config uuid outside = started at hsound hcases ⊢
    dsimp only
    split
    · next hstarted =>
      rcases hcases hstarted with ⟨hthere, hsame⟩ | ⟨-, hnew⟩
      · rw [hsame]
        exact hlive hthere
      · exact hfresh _ hsound hnew
    · exact hsound
  · exact h

/-! ### Every operation -/

def selection (session : InputSession) (index : Nat) : Payload :=
  if session.panel.typoCandidates = [] then .selectCandidate index else .selectTypoCorrection index

/-- The index of a row fits what the daemon holds. -/
theorem selection_asks {session : InputSession} (htidy : session.Tidy) {row index : Nat}
    (hindex : session.panel.indices[row]? = some index) :
    Asks session (selection session index) := by
  unfold selection
  split
  · next hnone =>
    exact ⟨Payload.noConfusion, fun held hagrees =>
      hagrees.indices hnone index (List.mem_of_getElem? hindex)⟩
  · next hsome =>
    refine ⟨Payload.noConfusion, fun held hagrees => ?_⟩
    obtain ⟨correction, hcorrection, -⟩ := htidy.panel.typos hsome row index hindex
    show index < held.typoCorrections.length
    rw [hagrees.typos hsome]
    exact (List.getElem?_eq_some_iff.mp hcorrection).1

/-- A session that was only started is asked to select or to forget: it refuses, and the connection
is closed. -/
theorem Fresh.refused (hfresh : context.Fresh) (h : context.Sound config uuid era others)
    {payload : Payload}
    (hselects : ∃ index, payload = .selectCandidate index ∨ payload = .forgetCandidate index) :
    (context.send config outside payload).2.Sound config uuid era others ∧
      (context.send config outside payload).2.connection.ready = false ∧
      context.connection.generation <
        (context.send config outside payload).2.connection.generation ∧
      (context.send config outside payload).2.session.inserted = context.session.inserted := by
  obtain ⟨held, hheld, hnumber, hnone⟩ := hfresh.held
  have hstray : Expected context.connection.sessions
      ⟨context.session.nextRequest, context.session.sessionId, some payload⟩ := by
    refine .inr ⟨hfresh.next, ⟨held, hheld, hnumber, hnone⟩, ?_⟩
    obtain ⟨index, rfl | rfl⟩ := hselects
    · exact ⟨index, .inl rfl⟩
    · exact ⟨index, .inr rfl⟩
  have hcases := hfresh.live.request_cases outside h payload hstray
  unfold Context.send
  dsimp only at hcases ⊢
  generalize context.request config outside payload = after at hcases ⊢
  obtain ⟨answer, asked⟩ := after
  obtain ⟨hconnection, hsession, hcases⟩ := hcases
  dsimp only at *
  rcases hcases
    with ⟨rfl, -, hgeneration⟩ | ⟨services, other, answer, hother, -, rfl, haccepted, -, -,
    hanswer, -⟩
  · refine ⟨h.lost hconnection (by omega) ?_, rfl, ?_, ?_⟩
    · rw [hsession]
      exact h.tidy.congr rfl rfl rfl id rfl
    · show context.connection.generation < asked.connection.generation + 1
      omega
    · dsimp only [Context.fail]
      rw [hsession, InputSession.clear_inserted]
      rfl
  · rw [hheld, Option.some.injEq] at hother
    subst hother
    exact absurd (hanswer ▸ handleMessage_stray hnone hselects) haccepted

theorem Sound.select (h : context.Sound config uuid era others) (hunique : Unique uuid)
    {row index : Nat} (hindex : context.session.panel.indices[row]? = some index) :
    (context.select config uuid outside index).2.Sound config uuid era others := by
  refine h.whenStarted outside hunique (fun hlive => ?_) fun after hsound hfresh => ?_
  · exact hlive.send outside h _ (selection_asks h.tidy hindex)
  · rw [hfresh.panel]
    exact (hfresh.refused outside hsound ⟨index, .inl rfl⟩).1

theorem Sound.forget (h : context.Sound config uuid era others) (hunique : Unique uuid)
    {row index : Nat} (hmenu : context.session.panel.learning = true)
    (hindex : context.session.panel.indices[row]? = some index) :
    (context.forget config uuid outside index).2.Sound config uuid era others := by
  have hnone : context.session.panel.typoCandidates = [] := by
    by_contra hsome
    simp [(h.tidy.panel.menu hsome).1] at hmenu
  refine h.whenStarted outside hunique (fun hlive => ?_) fun after hsound hfresh => ?_
  · exact hlive.send outside h _ ⟨Payload.noConfusion, fun held hagrees =>
      hagrees.indices hnone index (List.mem_of_getElem? hindex)⟩
  · exact (hfresh.refused outside hsound ⟨index, .inr rfl⟩).1

theorem Sound.resetLearning (h : context.Sound config uuid era others) (hunique : Unique uuid) :
    (context.resetLearning config uuid outside).2.Sound config uuid era others :=
  h.whenStarted outside hunique
    (fun hlive => hlive.send outside h _ ⟨Payload.noConfusion, fun _ _ => trivial⟩)
    fun _ hsound hfresh => hfresh.live.send outside hsound _
      ⟨Payload.noConfusion, fun _ _ => trivial⟩

theorem Live.corrected (hlive : context.Live) (h : context.Sound config uuid era others) :
    let asked := context.request config outside .requestTypoCorrections
    asked.2.fail.Sound config uuid era others ∧
    ∀ candidates, asked.1 = some (.typoCorrectionResponse candidates) → ∀ panel : CandidatePanel,
      (candidates ≠ [] → panel = context.session.panel.showTypos candidates) →
      (candidates = [] → panel = context.session.panel.showState context.session.state) →
      (⟨asked.2.connection, { asked.2.session with panel }⟩ : Context).Sound config uuid
        era others := by
  have hcases := hlive.request_cases outside h .requestTypoCorrections
    (hlive.welcome h fun _ _ => trivial)
  dsimp only at hcases ⊢
  generalize context.request config outside .requestTypoCorrections = after at hcases ⊢
  obtain ⟨answer, asked⟩ := after
  obtain ⟨hconnection, hsession, hcases⟩ := hcases
  dsimp only at *
  refine ⟨h.lost hconnection ?_ ?_, ?_⟩
  · rcases hcases with ⟨-, -, hgeneration⟩ | ⟨-, -, -, -, -, -, -, -, hgeneration, -⟩ <;> omega
  · rw [hsession]
    exact h.tidy.congr rfl rfl rfl id rfl
  · intro candidates hcandidates panel hsome hnone
    rcases hcases
      with ⟨rfl, -⟩ | ⟨services, held, answer, hheld, hagrees, rfl, -, -, hgeneration, hanswer,
      hsessions⟩
    · cases hcandidates
    · cases hcandidates
      rw [handleMessage_typos hagrees.number hanswer] at hsessions
      refine ⟨hconnection, ?_, ?_, ?_, fun _ => ?_, fun hname => ?_⟩
      · rw [InputSession.lease_named (by rw [hsession]; exact hlive.named)]
        refine (hlive.shares h).updated hlive.generation hgeneration hsessions ?_ ?_ ?_
        · simp [hsession]
        · simp [hsession]
        · refine ⟨?_, ?_, ?_, ?_⟩
          · rw [hsession]
            exact Nat.lt_succ_self _
          · rw [hsession]
            exact hagrees.shown.congr rfl
          · intro hlist
            by_cases hempty : candidates = []
            · rw [hnone hempty] at hlist
              exact absurd rfl hlist
            · rw [hsome hempty]
              rfl
          · intro hlist index hindex
            by_cases hempty : candidates = []
            · rw [hnone hempty] at hindex
              exact InputSession.showState_indices _ (hagrees.shown.congr rfl) index hindex
            · rw [hsome hempty] at hlist
              exact absurd hlist hempty
      · rw [hsession]
        by_cases hempty : candidates = []
        · rw [hnone hempty]
          exact CandidatePanel.showState_tidy _ hagrees.shown
        · rw [hsome hempty]
          exact CandidatePanel.showTypos_tidy _ _ hempty
      · rw [hsession]
        exact h.tidy.shown
      · rw [hsession]
        exact h.tidy.client hlive.named
      · exact absurd hname (by rw [hsession]; exact hlive.named)

theorem Sound.requestTypos (h : context.Sound config uuid era others) (hunique : Unique uuid) :
    (context.requestTypos config uuid outside).2.Sound config uuid era others := by
  refine h.whenStarted outside hunique (fun hlive => ?_) fun current hsound hfresh => ?_
  · obtain ⟨hfail, hanswered⟩ := hlive.corrected outside h
    dsimp only
    split
    · next candidates hcandidates =>
      exact hanswered candidates hcandidates _ (fun hsome => if_pos hsome)
        fun hnone => if_neg (by simpa using hnone)
    · exact hfail
  · obtain ⟨hfail, hanswered⟩ := hfresh.live.corrected outside hsound
    dsimp only
    split
    · next candidates hcandidates =>
      exact hanswered candidates hcandidates _ (fun hsome => if_pos hsome)
        fun hnone => if_neg (by simpa using hnone)
    · exact hfail

/-- Who the text client is, says nothing about the session. -/
theorem Sound.withClient (h : context.Sound config uuid era others) :
    (⟨context.connection, { context.session with textClient := true }⟩ : Context).Sound config uuid
      era others where
  connection := h.connection
  shares := by
    by_cases hname : context.session.sessionId = ""
    · have hshares := h.shares
      rw [InputSession.lease_idle hname] at hshares
      rwa [InputSession.lease_idle (by exact hname)]
    · have hshares := h.shares
      rw [InputSession.lease_named hname] at hshares
      rw [InputSession.lease_named (by exact hname)]
      exact hshares.renewed rfl rfl fun held hagrees =>
        ⟨hagrees.number, hagrees.shown, hagrees.typos, hagrees.indices⟩
  tidy := h.tidy.congr rfl rfl rfl (fun _ => rfl) rfl

theorem Sound.commit (h : context.Sound config uuid era others) :
    (context.commit config outside).Sound config uuid era others ∧
      ((context.commit config outside).session.sessionId ≠ "" →
        (context.commit config outside).Live) := by
  have hclient := h.withClient
  unfold Context.commit
  dsimp only
  split
  · next hover =>
    refine ⟨hclient.idle (fun hlive => ?_) rfl hclient.tidy.clear, fun hname => absurd rfl hname⟩
    exact hover.elim (fun hname => hlive.named hname) fun hstale => hstale hlive.generation
  · next hopen =>
    simp only [not_or, not_not] at hopen
    have hlive : (⟨context.connection,
        { context.session with textClient := true }⟩ : Context).Live :=
      ⟨hopen.1, hopen.2⟩
    have hasks : Asks { context.session with textClient := true } .commitComposition :=
      ⟨Payload.noConfusion, fun _ _ => trivial⟩
    exact ⟨hlive.send outside hclient _ hasks, hlive.send_live outside hclient _ hasks⟩

theorem Live.endSession (hlive : context.Live) (h : context.Sound config uuid era others) :
    (⟨(context.request config outside .endSession).2.connection,
      { (context.request config outside .endSession).2.session.clear with textClient := false }⟩ :
        Context).Sound config uuid era others := by
  have hcases := hlive.request_cases outside h .endSession (hlive.welcome h fun _ _ => trivial)
  dsimp only at hcases
  generalize context.request config outside .endSession = after at hcases ⊢
  obtain ⟨answer, asked⟩ := after
  obtain ⟨hconnection, hsession, hcases⟩ := hcases
  dsimp only at *
  have htidy : ({ asked.session.clear with textClient := false } : InputSession).Tidy := by
    rw [hsession]
    exact ⟨CandidatePanel.tidy_cleared _, h.tidy.clear.shown, fun hname => absurd rfl hname,
      fun _ => ⟨rfl, rfl⟩⟩
  rcases hcases
    with ⟨-, hclosed, hgeneration⟩ | ⟨services, held, answer, -, hagrees, -, -, -, hgeneration,
    -, hsessions⟩
  · exact h.later hconnection (hgeneration ▸ Nat.lt_succ_self _)
      (hconnection.closed hclosed) rfl htidy
  · refine ⟨hconnection, ?_, htidy⟩
    rw [handleMessage_end hagrees.number] at hsessions
    rw [InputSession.lease_idle rfl]
    exact (hlive.shares h).returned hlive.generation hgeneration hsessions

theorem Sound.deactivate (h : context.Sound config uuid era others) :
    (context.deactivate config outside).Sound config uuid era others := by
  obtain ⟨hsound, hlive⟩ := h.commit outside
  unfold Context.deactivate
  generalize context.commit config outside = committed at hsound hlive ⊢
  dsimp only
  split
  · next hopen => exact (hlive hopen.1).endSession outside hsound
  · next hshut =>
    refine hsound.idle (fun hlive => hshut ⟨hlive.named, hlive.ready hsound⟩) rfl ?_
    exact ⟨CandidatePanel.tidy_cleared _, hsound.tidy.clear.shown, fun hname => absurd rfl hname,
      fun _ => ⟨rfl, rfl⟩⟩

/-- A session knows less of what the daemon holds, or displays it otherwise. -/
theorem Sound.redrawn (h : context.Sound config uuid era others) {panel : CandidatePanel}
    (htidy : panel.Tidy context.session.state)
    (htypos : panel.typoCandidates ≠ [] → panel.typoCandidates =
      context.session.panel.typoCandidates)
    (hindices : panel.typoCandidates = [] → ∀ index ∈ panel.indices,
      context.session.panel.typoCandidates = [] ∧ index ∈ context.session.panel.indices)
    (hidle : context.session.sessionId = "" → panel = .cleared) :
    (⟨context.connection, { context.session with panel }⟩ : Context).Sound config uuid
    era others where
  connection := h.connection
  shares := by
    by_cases hname : context.session.sessionId = ""
    · have hshares := h.shares
      rw [InputSession.lease_idle hname] at hshares
      rwa [InputSession.lease_idle (by exact hname)]
    · have hshares := h.shares
      rw [InputSession.lease_named hname] at hshares
      rw [InputSession.lease_named (by exact hname)]
      refine hshares.renewed rfl rfl fun held hagrees => ⟨hagrees.number, hagrees.shown, ?_, ?_⟩
      · intro hne
        show held.typoCorrections = panel.typoCandidates
        rw [htypos hne]
        exact hagrees.typos (htypos hne ▸ hne)
      · intro hnil index hindex
        obtain ⟨hbefore, hin⟩ := hindices hnil index hindex
        exact hagrees.indices hbefore index hin
  tidy := ⟨htidy, h.tidy.shown, h.tidy.client, fun hname => ⟨hidle hname, (h.tidy.idle hname).2⟩⟩

theorem Sound.activate (h : context.Sound config uuid era others) :
    context.activate.Sound config uuid era others := by
  have hcleared : (⟨context.connection, { context.session with panel := .cleared }⟩ :
      Context).Sound config uuid era others :=
    h.redrawn (CandidatePanel.tidy_cleared _) (fun hne => absurd rfl hne)
      (fun _ _ hin => by cases hin)
      fun _ => rfl
  refine ⟨hcleared.connection.prepare, ?_, hcleared.tidy⟩
  have hshares := hcleared.shares
  rwa [← DaemonConnection.link_prepare] at hshares

theorem Live.sendKey (hlive : context.Live) (h : context.Sound config uuid era others)
    (key : KeyEvent) : (context.sendKey config outside key).2.Sound config uuid era others :=
  hlive.send outside h _ ⟨Payload.noConfusion, fun _ _ => trivial⟩

theorem Sound.moveTypoSelection (h : context.Sound config uuid era others)
    (hne : context.session.panel.typoCandidates ≠ []) (forward : Bool) :
    (context.moveTypoSelection forward).2.Sound config uuid era others := by
  refine h.redrawn
    (CandidatePanel.moveTypoSelection_tidy _ hne (h.tidy.panel.typoSelection hne) forward)
    (fun _ => rfl) (fun hnil => absurd hnil hne) fun hname => ?_
  exact absurd (congrArg CandidatePanel.typoCandidates (h.tidy.idle hname).1) hne

theorem Live.start_same (hlive : context.Live) :
    context.start config uuid outside = (true, context) := by
  have hcurrent : context.current = context := if_neg (not_not.mpr hlive.generation)
  unfold Context.start
  rw [hcurrent]
  exact if_pos hlive.named

theorem Live.selectTypo (hlive : context.Live) (h : context.Sound config uuid era others)
    (hne : context.session.panel.typoCandidates ≠ []) :
    (context.select config uuid outside context.session.panel.typoSelection).2.Sound config uuid era
      others := by
  unfold Context.select Context.whenStarted
  rw [if_pos (h.tidy.client hlive.named), hlive.start_same]
  simp only [if_true, hne, if_false]
  refine hlive.send outside h _ ⟨Payload.noConfusion, fun held hagrees => ?_⟩
  show context.session.panel.typoSelection < held.typoCorrections.length
  rw [hagrees.typos hne]
  exact h.tidy.panel.typoSelection hne

theorem Live.typoKey (hlive : context.Live) (h : context.Sound config uuid era others)
    (hne : context.session.panel.typoCandidates ≠ []) (key : KeyEvent) :
    (context.typoKey config uuid outside key).2.Sound config uuid era others := by
  unfold Context.typoKey
  split
  · exact h.moveTypoSelection hne true
  · exact h.moveTypoSelection hne false
  · exact h.moveTypoSelection hne _
  · exact hlive.selectTypo outside h hne
  · exact hlive.sendKey outside h key

theorem Live.pressed (hlive : context.Live) (h : context.Sound config uuid era others)
    (hunique : Unique uuid) (press : KeyPress) :
    (context.pressed config uuid outside press).2.Sound config uuid era others := by
  unfold Context.pressed
  split
  · next index hindex =>
    obtain ⟨digit, -, hdigit⟩ := Option.bind_eq_some_iff.mp hindex
    exact h.select outside hunique (Option.ite_none_right_eq_some.mp hdigit).2
  · split
    · exact hlive.sendKey outside h press.key
    · next hne => exact hlive.typoKey outside h hne press.key

theorem Sound.handleEvent (h : context.Sound config uuid era others) (hunique : Unique uuid)
    (press : KeyPress) :
    (context.handleEvent config uuid outside press).2.Sound config uuid era others := by
  have hwith := h.withClient
  unfold Context.handleEvent
  split
  · dsimp only
    split
    · dsimp only
      split
      · exact (hwith.commit outside).1
      · exact hwith
    · obtain ⟨hsound, hcases⟩ := hwith.start outside hunique rfl
      have hidle := start_idle outside config uuid
        (⟨context.connection, { context.session with textClient := true }⟩ : Context)
      generalize Context.start config uuid outside
        ⟨context.connection, { context.session with textClient := true }⟩ = started
        at hsound hcases hidle ⊢
      split
      · next hstarted =>
        rcases hcases hstarted with ⟨hlive, hsame⟩ | ⟨-, hfresh⟩
        · exact Live.pressed outside (hsame ▸ hlive) hsound hunique press
        · exact hfresh.live.pressed outside hsound hunique press
      · next hfailed =>
        refine hsound.idle (fun hlive => ?_) rfl hsound.tidy.clear
        exact hlive.named (hidle (by simpa using hfailed))
  · exact h

theorem Sound.perform (h : context.Sound config uuid era others) (hunique : Unique uuid)
    (operation : Operation) :
    (context.perform config uuid outside operation).Sound config uuid era others := by
  cases operation with
  | activate => exact h.activate
  | deactivate => exact h.deactivate outside
  | commit => exact (h.commit outside).1
  | handleEvent press => exact h.handleEvent outside hunique press
  | resetLearning => exact h.resetLearning outside hunique
  | choose row =>
    cases hindex : context.session.panel.indices[row]? with
    | none => simpa [Context.perform, hindex] using h
    | some index => simpa [Context.perform, hindex] using h.select outside hunique hindex
  | forget row =>
    cases hindex : if context.session.panel.learning then context.session.panel.indices[row]?
      else none with
    | none => simpa only [Context.perform, hindex] using h
    | some index =>
      obtain ⟨hmenu, hrow⟩ := Option.ite_none_right_eq_some.mp hindex
      simpa only [Context.perform, hindex] using h.forget outside hunique hmenu hrow
  | requestTypos =>
    by_cases hmenu : context.session.panel.typo = true ∧ context.session.panel.rows ≠ []
    · simpa only [Context.perform, if_pos hmenu] using h.requestTypos outside hunique
    · simpa only [Context.perform, if_neg hmenu] using h

end Context

end BeanKey.Macos
