import BeanKey.Fcitx.Runs

/-! Every text that an answer commits is committed once, in the context that asked. -/
namespace BeanKey.Fcitx
open Engine Protocol

def commitOf : Option Payload → Option Text
  | some (.stateResponse response) => if response.commit = [] then none else some response.commit
  | _ => none

/-- What the answers that came back commit, for the sessions in `mine`. -/
def delivered (mine : String → Bool) (handled : List Handled) : List Text :=
  handled.filterMap fun entry =>
    if entry.delivered && mine entry.envelope.sessionId then
      commitOf entry.response.payload else none

theorem delivered_append (mine : String → Bool) (handled new : List Handled) :
    delivered mine (handled ++ new) = delivered mine handled ++ delivered mine new :=
  List.filterMap_append

theorem delivered_congr {mine theirs : String → Bool} {handled : List Handled}
    (h : ∀ entry ∈ handled, mine entry.envelope.sessionId = theirs entry.envelope.sessionId) :
    delivered mine handled = delivered theirs handled :=
  List.filterMap_congr fun entry hentry => by rw [h entry hentry]

theorem delivered_nil {mine : String → Bool} {handled : List Handled}
    (h : ∀ entry ∈ handled, entry.delivered = false ∨ mine entry.envelope.sessionId = false) :
    delivered mine handled = [] := by
  refine List.filterMap_eq_nil_iff.mpr fun entry hentry => ?_
  cases h entry hentry with
  | inl hlost => simp [hlost]
  | inr hforeign => simp [hforeign]

namespace BeanKeyEngine
variable {config : EngineConfig} {engine : BeanKeyEngine}

def Given (engine : BeanKeyEngine) (sessionId : String) : Prop :=
  ∃ number < engine.nextSessionId, sessionId = toString number

/-- One message is handled at most once, and an answer is taken only when it came back. -/
theorem request_handled (config : EngineConfig) (outside : Nat → Outside) (engine : BeanKeyEngine)
    (envelope : Envelope) :
    let after := engine.request config outside envelope
    after.2.nextSessionId = engine.nextSessionId ∧
    ((after.1 = none ∧ ∃ new, after.2.handled = engine.handled ++ new ∧
        ∀ entry ∈ new, entry.envelope = envelope ∧ entry.delivered = false) ∨
      ∃ services, after.1 = some (handle config services engine.sessions envelope).1 ∧
        after.2.handled = engine.handled ++ [⟨engine.sessions, envelope,
          (handle config services engine.sessions envelope).1, true⟩]) := by
  unfold request
  dsimp only
  split
  · split
    · split
      · next hreturns => exact ⟨rfl, .inr ⟨_, rfl, by simp [hreturns]⟩⟩
      · next hlost =>
        refine ⟨rfl, .inl ⟨rfl, _, rfl, ?_⟩⟩
        simpa using hlost
    · exact ⟨rfl, .inl ⟨rfl, [], by simp [BeanKeyEngine.disconnect], by simp⟩⟩
  · exact ⟨rfl, .inl ⟨rfl, [], by simp, by simp⟩⟩

end BeanKeyEngine

theorem apply_committed (state : BeanKeyState) (response : StateResponse) :
    (state.apply response).inputContext.committed =
      state.inputContext.committed ++ (commitOf (some (.stateResponse response))).toList := by
  simp only [BeanKeyState.apply, commitOf]
  split <;> simp_all

/-- Ending a session commits nothing, and neither does asking for corrections. -/
theorem commitOf_quiet {config : EngineConfig} {services : Services}
    {previous : Option SessionState} {requestId : Nat} {payload : Payload}
    (h : payload = .endSession ∨ payload = .requestTypoCorrections) :
    commitOf (some (handleMessage config services previous requestId (some payload)).1) = none := by
  cases previous with
  | none => rcases h with rfl | rfl <;> rfl
  | some session =>
    have hquiet : commitOf (some (handleSessionRequest config services session requestId
        payload).1) = none := by
      unfold handleSessionRequest
      split
      · rfl
      · rcases h with rfl | rfl <;> (dsimp only; split <;> rfl)
    rcases h with rfl | rfl <;> exact hquiet

namespace Context
variable (config : EngineConfig) (outside : Nat → Outside) {context : Context}
  {mine : String → Bool} {before : BeanKeyEngine}

/-- Since `before`, the messages of the context were for sessions of its own; what it committed is
what the answers to its own messages committed. -/
structure Credits (mine : String → Bool) (before : BeanKeyEngine) (context : Context) : Prop where
  committed : context.state.inputContext.committed = delivered mine context.engine.handled
  redraw : context.state.normalState.commit = []
  started : context.state.started = true →
    mine context.state.sessionId = true ∧ context.engine.Given context.state.sessionId
  future : ∀ number, context.engine.nextSessionId ≤ number → mine (toString number) = true
  named : before.nextSessionId ≤ context.engine.nextSessionId
  handled : ∃ new, context.engine.handled = before.handled ++ new ∧
    ∀ entry ∈ new, mine entry.envelope.sessionId = true ∧
      context.engine.Given entry.envelope.sessionId

theorem Credits.congr (h : context.Credits mine before) {after : Context}
    (hhandled : after.engine.handled = context.engine.handled)
    (hnext : after.engine.nextSessionId = context.engine.nextSessionId)
    (hcommitted : after.state.inputContext.committed = context.state.inputContext.committed)
    (hredraw : after.state.normalState.commit = [])
    (hstarted : after.state.started = true →
      context.state.started = true ∧ after.state.sessionId = context.state.sessionId) :
    after.Credits mine before where
  committed := by rw [hcommitted, hhandled, h.committed]
  redraw := hredraw
  started := by
    intro hafter
    obtain ⟨hbefore, hsame⟩ := hstarted hafter
    simpa [hsame, BeanKeyEngine.Given, hnext] using h.started hbefore
  future := hnext ▸ h.future
  named := hnext ▸ h.named
  handled := by
    simpa [hhandled, BeanKeyEngine.Given, hnext] using h.handled

/-- The answer to a message under a name of the context is credited to the context. -/
theorem Credits.request (h : context.Credits mine before)
    (hmine : mine context.state.sessionId = true)
    (hgiven : context.engine.Given context.state.sessionId) (payload : Payload) :
    let asked := context.request config outside payload
    (asked.1 = none ∨ ∃ services, asked.1 = some (handleMessage config services
      (context.engine.sessions context.state.sessionId) context.state.nextRequestId
        (some payload)).1) ∧
    ∀ after : Context, after.engine.handled = asked.2.engine.handled →
      after.engine.nextSessionId = asked.2.engine.nextSessionId →
      after.state.inputContext.committed =
        context.state.inputContext.committed ++ (commitOf asked.1).toList →
      after.state.normalState.commit = [] →
      (after.state.started = true → after.state.sessionId = context.state.sessionId) →
      after.Credits mine before := by
  have hcases := BeanKeyEngine.request_handled config outside context.engine
    ⟨context.state.nextRequestId, context.state.sessionId, some payload⟩
  obtain ⟨old, hold, hown⟩ := h.handled
  dsimp only [Context.request] at hcases ⊢
  generalize context.engine.request config outside
    ⟨context.state.nextRequestId, context.state.sessionId, some payload⟩ = asked at hcases ⊢
  obtain ⟨answer, engine⟩ := asked
  obtain ⟨hnext, hcases⟩ := hcases
  dsimp only at *
  -- The entries that the call adds are all under the name of the context.
  have hadds : ∀ new, engine.handled = context.engine.handled ++ new →
      (∀ entry ∈ new, entry.envelope.sessionId = context.state.sessionId) →
      ∀ after : Context, after.engine.handled = engine.handled →
        after.engine.nextSessionId = engine.nextSessionId →
        after.state.inputContext.committed =
          context.state.inputContext.committed ++ delivered mine new →
        after.state.normalState.commit = [] →
        (after.state.started = true → after.state.sessionId = context.state.sessionId) →
        after.Credits mine before := by
    intro new hnew hnames after hhandled hafterNext hcommitted hredraw hstarted
    have hgivenAfter : after.engine.Given context.state.sessionId := by
      simpa [BeanKeyEngine.Given, hafterNext, hnext] using hgiven
    constructor
    case committed => rw [hcommitted, hhandled, hnew, delivered_append, h.committed]
    case redraw => exact hredraw
    case started => exact fun hafter => by rw [hstarted hafter]; exact ⟨hmine, hgivenAfter⟩
    case future => rw [hafterNext, hnext]; exact h.future
    case named => rw [hafterNext, hnext]; exact h.named
    case handled =>
      refine ⟨old ++ new, by rw [hhandled, hnew, hold, List.append_assoc], ?_⟩
      intro entry hentry
      cases List.mem_append.mp hentry with
      | inl hin => simpa [BeanKeyEngine.Given, hafterNext, hnext] using hown entry hin
      | inr hin =>
        rw [hnames entry hin]
        exact ⟨hmine, hgivenAfter⟩
  rcases hcases with ⟨rfl, new, hnew, hlost⟩ | ⟨services, rfl, hnew⟩
  · refine ⟨.inl rfl, ?_⟩
    have hnothing : delivered mine new = [] :=
      delivered_nil fun entry hentry => .inl (hlost entry hentry).2
    have hadded := hadds new hnew fun entry hentry => by rw [(hlost entry hentry).1]
    rw [hnothing] at hadded
    exact hadded
  · refine ⟨.inr ⟨services, rfl⟩, ?_⟩
    have hone (response : Envelope) : delivered mine [⟨context.engine.sessions,
        ⟨context.state.nextRequestId, context.state.sessionId, some payload⟩, response, true⟩] =
          (commitOf response.payload).toList := by
      cases hcommit : commitOf response.payload <;> simp [delivered, hmine, hcommit]
    have hadded := hadds _ hnew (by simp)
    rw [hone] at hadded
    exact hadded

theorem Credits.lost (h : context.Credits mine before) : context.failSession.Credits mine before :=
  h.congr rfl rfl rfl rfl fun hno => by cases hno

theorem Credits.invalidateStaleSession (h : context.Credits mine before) :
    context.invalidateStaleSession.Credits mine before := by
  unfold Context.invalidateStaleSession
  split
  · exact h.congr rfl rfl rfl rfl fun hno => by cases hno
  · exact h

theorem Credits.send (h : context.Credits mine before) (hstarted : context.state.started = true)
    (payload : Payload) : (context.send config outside payload).2.Credits mine before := by
  obtain ⟨hmine, hgiven⟩ := h.started hstarted
  have hasked := (h.request config outside hmine hgiven payload).2
  have hstate : (context.request config outside payload).2.state =
      { context.state with nextRequestId := context.state.nextRequestId + 1 } := rfl
  unfold Context.send
  dsimp only at hasked ⊢
  generalize context.request config outside payload = asked at hasked hstate ⊢
  obtain ⟨answer, asked⟩ := asked
  dsimp only at *
  split
  · next response =>
    refine hasked _ rfl rfl ?_ rfl fun _ => by rw [hstate]; rfl
    rw [apply_committed, hstate]
  · next hother =>
    refine hasked _ rfl rfl ?_ rfl fun hno => by cases hno
    have hnothing : commitOf answer = none := by
      unfold commitOf
      split
      · exact absurd rfl (hother _)
      · rfl
    rw [hnothing, Option.toList_none, List.append_nil]
    simp [Context.failSession, BeanKeyState.dropSession, BeanKeyState.clearUi, hstate]

theorem Credits.start (h : context.Credits mine before) :
    (context.start config outside).2.Credits mine before ∧
      ((context.start config outside).1 = true →
        (context.start config outside).2.state.started = true) := by
  have hcurrent := h.invalidateStaleSession
  unfold Context.start
  generalize context.invalidateStaleSession = current at hcurrent ⊢
  dsimp only
  split
  · next hstarted => exact ⟨hcurrent, fun _ => hstarted⟩
  · next hstopped =>
    have hconnect : (⟨(current.engine.ensureConnected outside).2, current.state.clearUi⟩ :
        Context).Credits mine before := by
      obtain ⟨preparing, time, hafter⟩ :=
        BeanKeyEngine.ensureConnected_cases outside current.engine
      rcases hafter with hafter | hafter
      all_goals
        rw [hafter]
        exact hcurrent.congr rfl rfl rfl rfl fun hstarted => absurd hstarted hstopped
    have hstillStopped : current.state.clearUi.started ≠ true := hstopped
    generalize current.state.clearUi = state at hconnect hstillStopped ⊢
    generalize current.engine.ensureConnected outside = ensured at hconnect ⊢
    obtain ⟨connected, engine⟩ := ensured
    dsimp only at *
    cases connected with
    | false => exact ⟨hconnect, fun hno => by cases hno⟩
    | true =>
      have hopened : (⟨engine, state⟩ : Context).opened.Credits mine before :=
        { committed := hconnect.committed
          redraw := hconnect.redraw
          started := fun hstarted => absurd hstarted hstillStopped
          future := fun number hlater => hconnect.future number (Nat.le_of_succ_le hlater)
          named := Nat.le_succ_of_le hconnect.named
          handled := by
            obtain ⟨new, hnew, hown⟩ := hconnect.handled
            refine ⟨new, hnew, fun entry hentry => ⟨(hown entry hentry).1, ?_⟩⟩
            obtain ⟨number, hlt, hname⟩ := (hown entry hentry).2
            exact ⟨number, Nat.lt_succ_of_lt hlt, hname⟩ }
      have hasked := (hopened.request config outside
        (hconnect.future engine.nextSessionId le_rfl)
        ⟨engine.nextSessionId, Nat.lt_succ_self _, rfl⟩
        (.startSession ⟨.unspecified, some (engine.surroundingText outside), .unspecified, []⟩)).2
      rw [if_pos rfl]
      have hstate : ((⟨engine, state⟩ : Context).opened.request config outside
          (.startSession ⟨.unspecified, some (engine.surroundingText outside), .unspecified,
            []⟩)).2.state = { (⟨engine, state⟩ : Context).opened.state with nextRequestId := 2 } :=
        rfl
      generalize (⟨engine, state⟩ : Context).opened.request config outside
        (.startSession ⟨.unspecified, some (engine.surroundingText outside), .unspecified, []⟩) =
          asked at hasked hstate ⊢
      obtain ⟨answer, asked⟩ := asked
      dsimp only at *
      split
      · next response =>
        refine ⟨hasked _ rfl rfl ?_ rfl fun _ => by rw [hstate]; rfl, fun _ => rfl⟩
        rw [apply_committed, hstate]
      · next hother =>
        refine ⟨hasked _ rfl rfl ?_ ?_ ?_, fun hno => by cases hno⟩
        · have hnothing : commitOf answer = none := by
            unfold commitOf
            split
            · exact absurd rfl (hother _)
            · rfl
          rw [hnothing, Option.toList_none, List.append_nil]
          simp [hstate]
        · rw [hstate]
          exact hconnect.redraw
        · intro hstarted
          refine absurd ?_ hstillStopped
          simpa [hstate, Context.opened] using hstarted

theorem Credits.whenStarted (h : context.Credits mine before) {valid : BeanKeyState → Bool}
    {next : Context → Bool × Context}
    (hnext : ∀ context : Context, context.Credits mine before → context.state.started = true →
      (next context).2.Credits mine before) :
    (context.whenStarted config outside valid next).2.Credits mine before := by
  obtain ⟨hcredits, hstarted⟩ := h.start config outside
  unfold Context.whenStarted
  generalize context.start config outside = started at hcredits hstarted ⊢
  dsimp only
  split
  · next hvalid => exact hnext _ hcredits (hstarted hvalid.1)
  · exact hcredits.lost

theorem Credits.select (h : context.Credits mine before) (word : CandidateWord) :
    (context.select config outside word).2.Credits mine before := by
  cases word <;> exact h.whenStarted config outside fun _ hcredits hstarted =>
    hcredits.send config outside hstarted _

/-- A list of corrections is shown, or the last state is drawn again; neither commits anything. -/
theorem showTypoCorrections_quiet (state : BeanKeyState)
    (candidates : List TypoCorrectionCandidate) (hredraw : state.normalState.commit = []) :
    let after := state.showTypoCorrections candidates
    after.inputContext.committed = state.inputContext.committed ∧
      after.normalState.commit = [] ∧ after.sessionId = state.sessionId := by
  unfold BeanKeyState.showTypoCorrections
  split
  · simp [BeanKeyState.apply, hredraw]
  · simp [BeanKeyState.displayTypoCorrections, hredraw]

theorem Credits.requestTypoCorrections (h : context.Credits mine before) :
    (context.requestTypoCorrections config outside).2.Credits mine before := by
  refine h.whenStarted config outside fun current hcredits hstarted => ?_
  obtain ⟨hmine, hgiven⟩ := hcredits.started hstarted
  obtain ⟨hanswer, hasked⟩ := hcredits.request config outside hmine hgiven
    .requestTypoCorrections
  have hstate : (current.request config outside .requestTypoCorrections).2.state =
      { current.state with nextRequestId := current.state.nextRequestId + 1 } := rfl
  dsimp only at hanswer hasked ⊢
  generalize current.request config outside .requestTypoCorrections = asked
    at hanswer hasked hstate ⊢
  obtain ⟨answer, asked⟩ := asked
  dsimp only at *
  have hnothing : commitOf answer = none := by
    rcases hanswer with rfl | ⟨services, rfl⟩
    · rfl
    · exact commitOf_quiet (.inr rfl)
  rw [hnothing, Option.toList_none, List.append_nil] at hasked
  split
  · next candidates =>
    have hquiet := showTypoCorrections_quiet asked.state candidates
      (by rw [hstate]; exact hcredits.redraw)
    rw [hstate] at hquiet
    refine hasked _ rfl rfl ?_ ?_ fun _ => ?_
    · rw [hstate]; exact hquiet.1
    · rw [hstate]; exact hquiet.2.1
    · rw [hstate]; exact hquiet.2.2
  · refine hasked _ rfl rfl ?_ rfl fun hno => by cases hno
    simp [Context.failSession, BeanKeyState.dropSession, BeanKeyState.clearUi, hstate]

theorem Credits.focusIn (h : context.Credits mine before) :
    (context.focusIn config outside).2.Credits mine before := by
  obtain ⟨hcredits, hstarted⟩ := h.start config outside
  unfold Context.focusIn
  generalize context.start config outside = started at hcredits hstarted ⊢
  dsimp only
  split
  · next hopen =>
    dsimp only
    split
    · exact hcredits
    · refine hcredits.congr rfl rfl ?_ rfl fun _ => ⟨hstarted hopen, rfl⟩
      rw [apply_committed, commitOf, hcredits.redraw]
      simp
  · exact hcredits

theorem Credits.focusOut (h : context.Credits mine before) (commitComposition : Bool) :
    (context.focusOut config outside commitComposition).Credits mine before := by
  have hcurrent := h.invalidateStaleSession
  unfold Context.focusOut
  generalize context.invalidateStaleSession = current at hcurrent ⊢
  dsimp only
  have hended : ∀ after : Context, after.Credits mine before →
      (⟨(if after.state.started = true ∧ after.engine.connected = true then
          (after.request config outside .endSession).2 else after).engine,
        (if after.state.started = true ∧ after.engine.connected = true then
          (after.request config outside .endSession).2 else after).state.dropSession⟩ :
        Context).Credits mine before := by
    intro after hafter
    split
    · next hopen =>
      obtain ⟨hmine, hgiven⟩ := hafter.started hopen.1
      obtain ⟨hanswer, hasked⟩ := hafter.request config outside hmine hgiven .endSession
      have hnothing : commitOf (after.request config outside .endSession).1 = none := by
        rcases hanswer with hanswer | ⟨services, hanswer⟩
        · rw [hanswer]
          rfl
        · rw [hanswer]
          exact commitOf_quiet (.inl rfl)
      refine hasked _ rfl rfl ?_ rfl fun hno => by cases hno
      rw [hnothing, Option.toList_none, List.append_nil]
      rfl
    · exact hafter.congr rfl rfl rfl rfl fun hno => by cases hno
  split
  · next hcommit => exact hended _ (hcurrent.send config outside hcommit.2 _)
  · exact hended current hcurrent

theorem Credits.reset (h : context.Credits mine before) :
    (context.reset config outside).Credits mine before := by
  have hcurrent := h.invalidateStaleSession
  unfold Context.reset
  generalize context.invalidateStaleSession = current at hcurrent ⊢
  dsimp only
  split
  · next hstarted =>
    have hsent := hcurrent.send config outside hstarted .resetSession
    split
    · exact hsent
    · exact hsent.lost
  · next hstopped =>
    exact hcurrent.congr rfl rfl rfl rfl fun hstarted => absurd hstarted hstopped

theorem Credits.typoKey (h : context.Credits mine before) (hstarted : context.state.started = true)
    (key : KeyEvent) : (context.typoKey config outside key).2.Credits mine before := by
  have hmoved (forward : Bool) : (⟨context.engine, context.state.moveTypoSelection forward⟩ :
      Context).Credits mine before :=
    h.congr rfl rfl rfl h.redraw fun _ => ⟨hstarted, rfl⟩
  unfold Context.typoKey
  split
  · exact hmoved true
  · exact hmoved false
  · exact hmoved _
  · exact h.select config outside (.typoCorrection _ [] [])
  · exact h.send config outside hstarted _

theorem Credits.processKey (h : context.Credits mine before) (isRelease : Bool) (key : KeyEvent)
    (selection : Option Nat) :
    (context.processKey config outside isRelease key selection).2.Credits mine before := by
  unfold Context.processKey
  split
  · exact h
  · refine h.whenStarted config outside fun current hcredits hstarted => ?_
    split
    · exact hcredits.select config outside (.typoCorrection _ [] [])
    · split
      · exact hcredits.select config outside (.candidate _ [] [])
      · split
        · exact hcredits.send config outside hstarted _
        · exact hcredits.typoKey config outside hstarted key

theorem Credits.perform (h : context.Credits mine before) (operation : Operation) :
    (context.perform config outside operation).Credits mine before := by
  cases operation with
  | focusIn => exact h.focusIn config outside
  | focusOut commitComposition => exact h.focusOut config outside commitComposition
  | processKey isRelease key selection => exact h.processKey config outside isRelease key selection
  | select word => exact h.select config outside word
  | forgetCandidate index =>
    exact h.whenStarted config outside fun _ hcredits hstarted =>
      hcredits.send config outside hstarted _
  | requestTypoCorrections => exact h.requestTypoCorrections config outside
  | resetLearning =>
    exact h.whenStarted config outside fun _ hcredits hstarted =>
      hcredits.send config outside hstarted _
  | reset => exact h.reset config outside

end Context

/-! ### Over runs -/

namespace Addon
variable {Name : Type} [DecidableEq Name] (config : EngineConfig) (outside : Nat → Outside)
  {addon : Addon Name} {owner : String → Option Name}

/-- Every name that was given belongs to one context, and every context committed what the answers
to its own messages committed. -/
structure Credited (owner : String → Option Name) (addon : Addon Name) : Prop where
  committed : ∀ name, (addon.states name).inputContext.committed =
    delivered (fun sessionId => owner sessionId = some name) addon.engine.handled
  redraw : ∀ name, (addon.states name).normalState.commit = []
  started : ∀ name, (addon.states name).started = true →
    owner (addon.states name).sessionId = some name ∧
      addon.engine.Given (addon.states name).sessionId
  given : ∀ entry ∈ addon.engine.handled, addon.engine.Given entry.envelope.sessionId

open Classical in
/-- The names still to be given can be those of any context: those an operation gives away are its
own. -/
theorem Credited.step (h : addon.Credited owner) (event : Event Name) :
    ∃ owner, (addon.step config outside event).Credited owner := by
  cases event with
  | prepared ready =>
    refine ⟨owner, ?_⟩
    have hkept : (addon.engine.prepared ready).handled = addon.engine.handled ∧
        (addon.engine.prepared ready).nextSessionId = addon.engine.nextSessionId := by
      unfold BeanKeyEngine.prepared
      split
      · cases ready <;> simp [BeanKeyEngine.connect]
      · exact ⟨rfl, rfl⟩
    constructor
    · intro name
      simpa [Addon.step, hkept.1] using h.committed name
    · exact h.redraw
    · intro name hstarted
      simpa [Addon.step, BeanKeyEngine.Given, hkept.2] using h.started name hstarted
    · simpa [Addon.step, BeanKeyEngine.Given, hkept.1, hkept.2] using h.given
  | operate name operation =>
    let after := fun sessionId =>
      if addon.engine.Given sessionId then owner sessionId else some name
    refine ⟨after, ?_⟩
    have hold : ∀ sessionId, addon.engine.Given sessionId → after sessionId = owner sessionId :=
      fun sessionId hgiven => if_pos hgiven
    -- Seen from the context, all names that are still to be given are its own.
    have hbefore : (addon.context name).Credits (fun sessionId => after sessionId = some name)
        addon.engine :=
      { committed := by
          rw [show (addon.context name).state = addon.states name from rfl, h.committed name]
          exact delivered_congr fun entry hentry => by simp [hold _ (h.given entry hentry)]
        redraw := h.redraw name
        started := fun hstarted => by
          obtain ⟨howner, hgiven⟩ := h.started name hstarted
          exact ⟨by simpa [Addon.context, hold _ hgiven] using howner, hgiven⟩
        future := fun number hlater => by
          have hnew : ¬ addon.engine.Given (toString number) := by
            intro hgiven
            obtain ⟨old, hlt, hname⟩ := hgiven
            have hsame := BeanKeyEngine.toString_injective hname
            have : addon.engine.nextSessionId ≤ number := hlater
            omega
          exact decide_eq_true (if_neg hnew)
        named := le_rfl
        handled := ⟨[], by simp [Addon.context], by simp⟩ }
    have hafter := hbefore.perform config outside operation
    obtain ⟨new, hnew, hown⟩ := hafter.handled
    have hgiven : ∀ sessionId, addon.engine.Given sessionId →
        ((addon.context name).perform config outside operation).engine.Given sessionId := by
      intro sessionId hgiven
      obtain ⟨number, hlt, hname⟩ := hgiven
      exact ⟨number, hlt.trans_le hafter.named, hname⟩
    constructor
    case committed =>
      intro someone
      by_cases hsame : someone = name
      · subst hsame
        simpa [Addon.step, Addon.context] using hafter.committed
      · have hother : ((addon.step config outside (.operate name operation)).states someone) =
            addon.states someone := by simp [Addon.step, hsame]
        have hothers : delivered (fun sessionId => after sessionId = some someone) new = [] := by
          refine delivered_nil fun entry hentry => .inr ?_
          have hmine : after entry.envelope.sessionId = some name := by
            simpa using (hown entry hentry).1
          simpa [hmine] using fun hname => hsame hname.symm
        rw [hother, h.committed someone,
          show (addon.step config outside (.operate name operation)).engine.handled =
            addon.engine.handled ++ new from hnew, delivered_append, hothers, List.append_nil]
        exact delivered_congr fun entry hentry => by simp [hold _ (h.given entry hentry)]
    case redraw =>
      intro someone
      by_cases hsame : someone = name
      · subst hsame
        simpa [Addon.step, Addon.context] using hafter.redraw
      · simpa [Addon.step, hsame] using h.redraw someone
    case started =>
      intro someone hstarted
      by_cases hsame : someone = name
      · subst hsame
        have hstarted' : ((addon.context someone).perform config outside
            operation).state.started = true := by
          simpa [Addon.step, Addon.context] using hstarted
        obtain ⟨howner, hnamed⟩ := hafter.started hstarted'
        simpa [Addon.step, Addon.context] using ⟨of_decide_eq_true howner, hnamed⟩
      · have hstarted' : (addon.states someone).started = true := by
          simpa [Addon.step, hsame] using hstarted
        obtain ⟨howner, hnamed⟩ := h.started someone hstarted'
        have hkept := hgiven _ hnamed
        rw [← hold _ hnamed] at howner
        simpa [Addon.step, hsame] using ⟨howner, hkept⟩
    case given =>
      intro entry hentry
      have hin : entry ∈ addon.engine.handled ++ new := by
        rw [← hnew]
        exact hentry
      cases List.mem_append.mp hin with
      | inl hearlier => exact hgiven _ (h.given entry hearlier)
      | inr hlater => exact (hown entry hlater).2

theorem Credited.run (h : addon.Credited owner) (events : List (Event Name)) :
    ∃ owner, (addon.run config outside events).Credited owner := by
  induction events generalizing addon owner with
  | nil => exact ⟨owner, h⟩
  | cons event events ih =>
    obtain ⟨next, hnext⟩ := h.step config outside event
    exact ih hnext

end Addon

/-- Over any run, every text that came back in an answer was committed once and in order, in the one
context whose session had asked; and nothing else was committed. -/
theorem commits_delivered {Name : Type} [DecidableEq Name] (config : EngineConfig)
    (outside : Nat → Outside) (runtimeRoot learningDirectory : Text) (events : List (Event Name)) :
    let addon := (Addon.loaded runtimeRoot learningDirectory).run config outside events
    ∃ owner : String → Option Name, ∀ name,
      (addon.states name).inputContext.committed =
        delivered (fun sessionId => owner sessionId = some name) addon.engine.handled := by
  have hloaded : (Addon.loaded runtimeRoot learningDirectory : Addon Name).Credited fun _ => none :=
    { committed := fun _ => rfl
      redraw := fun _ => rfl
      started := fun _ hno => by cases hno
      given := by simp [Addon.loaded] }
  obtain ⟨owner, howner⟩ := hloaded.run config outside events
  exact ⟨owner, howner.committed⟩

end BeanKey.Fcitx
