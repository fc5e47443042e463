import BeanKey.Library.Window
import BeanKey.Engine.Welcome

/-! The Fcitx addon: one engine with one connection to the daemon, and a state for every input
context. What the outside does at each call (the daemon, the network, the clock) is a parameter. -/
namespace BeanKey.Fcitx
open Engine Protocol

def kCandidatePageSize : Nat := 9

/-- What happens outside of the process at one of its calls. -/
structure Outside where
  /-- The daemon accepts a connection. -/
  accepts : Bool
  /-- The delay after a failed start is not over. -/
  delays : Bool
  /-- The message reaches the daemon, and its answer comes back in time. -/
  reaches : Bool
  returns : Bool
  services : Services
  surroundingText : SurroundingText

/-! ### The panel -/

inductive CandidateWord where
  | candidate (index : Nat) (text annotation : Text)
  | typoCorrection (index : Nat) (correctedInput convertedText : Text)

structure CandidateList where
  words : List CandidateWord := []
  /-- The index given to `setGlobalCursorIndex`. -/
  globalCursorIndex : Option Int := none
  selectionKeys : Bool := false
  /-- The actions of a row: it can be forgotten, and its typos can be corrected. -/
  learningWritable : Bool := false
  lmTypoAvailable : Bool := false

/-- The segments of the preedit in bytes, and where the cursor stands in it. -/
structure Preedit where
  highlighted : List UInt8 := []
  underlined : List UInt8 := []
  cursor : Nat := 0

structure Panel where
  preedit : Preedit := {}
  candidateList : Option CandidateList := none
  auxDown : Text := []

structure InputContext where
  committed : List Text := []
  panel : Panel := {}
  /-- The action in the status area. -/
  resetLearningAction : Bool := false

/-- The byte where a character starts; behind the text it is the end. -/
def byteOffset (text : Text) (characterOffset : Nat) : Nat :=
  (utf8 (text.take characterOffset)).length

def preeditPanel (state : StateResponse) : Preedit :=
  let bytes := utf8 state.preedit
  let highlightedBytes := byteOffset state.preedit state.highlightedPreeditLength
  { highlighted := bytes.take highlightedBytes
    underlined := bytes.drop highlightedBytes
    cursor := byteOffset state.preedit state.preeditCursor }

/-! ### The state of an input context -/

structure BeanKeyState where
  sessionId : String := ""
  nextRequestId : Nat := 1
  connectionGeneration : Nat := 0
  started : Bool := false
  selectedCandidate : Int := -1
  candidateWindowStart : Nat := 0
  normalState : StateResponse := {}
  typoCandidates : List TypoCorrectionCandidate := []
  typoSelection : Nat := 0
  typoWindowStart : Nat := 0
  lmTypoAvailable : Bool := false
  learningAvailable : Bool := false
  learningWritable : Bool := false
  candidateIndices : List Nat := []
  inputContext : InputContext := {}

namespace BeanKeyState

def windowStart (state : BeanKeyState) (response : StateResponse) : Nat :=
  if response.candidateWindow = .selecting then
    let start := if state.typoCandidates = [] then state.candidateWindowStart else 0
    if 0 ≤ response.selectedCandidate then
      Window.reveal kCandidatePageSize start response.selectedCandidate.toNat
    else start
  else 0

def candidateWord (candidate : Protocol.Candidate) : CandidateWord :=
  .candidate candidate.index candidate.text candidate.annotation

def candidateList (response : StateResponse) (windowStart : Nat) : CandidateList where
  words := (if response.candidateWindow = .selecting then
      Window.rows kCandidatePageSize windowStart response.candidates
    else response.candidates.take 1).map candidateWord
  globalCursorIndex :=
    if 0 ≤ response.selectedCandidate ∧ response.selectedCandidate < response.candidates.length then
      some (response.selectedCandidate - windowStart)
    else none
  selectionKeys := response.candidateWindow = .selecting
  learningWritable := response.learningWritable
  lmTypoAvailable := response.lmTypoAvailable

def responsePanel (response : StateResponse) (windowStart : Nat) : Panel :=
  let candidates := candidateList response windowStart
  if response.reset ∧ response.preedit = [] ∧ response.candidates = [] then {}
  else
    { preedit := preeditPanel response
      candidateList :=
        if response.candidateWindow = .hidden ∨ candidates.words = [] then none else some candidates
      auxDown := response.prediction.elim [] fun prediction => "→ ".toList ++
        prediction.displayText }

/-- Shows a response and commits what it carries. Redrawing it later commits nothing. -/
def apply (state : BeanKeyState) (response : StateResponse) : BeanKeyState :=
  let windowStart := state.windowStart response
  { state with
    typoCandidates := []
    typoSelection := 0
    typoWindowStart := 0
    normalState := { response with commit := [] }
    lmTypoAvailable := response.lmTypoAvailable
    learningAvailable := response.learningAvailable
    learningWritable := response.learningWritable
    candidateIndices := response.candidates.map Protocol.Candidate.index
    selectedCandidate := response.selectedCandidate
    candidateWindowStart := windowStart
    inputContext :=
      { committed :=
          if response.commit = [] then state.inputContext.committed
          else state.inputContext.committed ++ [response.commit]
        panel := responsePanel response windowStart
        resetLearningAction := response.learningAvailable } }

def typoCorrectionWord (candidate : TypoCorrectionCandidate × Nat) : CandidateWord :=
  .typoCorrection candidate.2 candidate.1.correctedInput candidate.1.convertedText

def displayTypoCorrections (state : BeanKeyState) : BeanKeyState :=
  let start := Window.reveal kCandidatePageSize state.typoWindowStart state.typoSelection
  let candidates : CandidateList :=
    { words := (Window.rows kCandidatePageSize start state.typoCandidates.zipIdx).map
        typoCorrectionWord
      globalCursorIndex := some ((state.typoSelection : Int) - start)
      selectionKeys := true }
  { state with
    typoWindowStart := start
    inputContext.panel.candidateList := some candidates
    inputContext.panel.auxDown := [] }

def showTypoCorrections (state : BeanKeyState) (candidates : List TypoCorrectionCandidate) :
    BeanKeyState :=
  if candidates = [] then state.apply state.normalState
  else
    { state with
      typoCandidates := candidates
      typoSelection := 0
      typoWindowStart := 0
      candidateIndices := []
      selectedCandidate := -1 }.displayTypoCorrections

def clearUi (state : BeanKeyState) : BeanKeyState :=
  { state with
    normalState := {}
    typoCandidates := []
    typoSelection := 0
    typoWindowStart := 0
    candidateIndices := []
    selectedCandidate := -1
    candidateWindowStart := 0
    lmTypoAvailable := false
    learningAvailable := false
    learningWritable := false
    inputContext := { state.inputContext with panel := {}, resetLearningAction := false } }

def dropSession (state : BeanKeyState) : BeanKeyState :=
  { state with started := false, sessionId := "" }.clearUi

def moveTypoSelection (state : BeanKeyState) (forward : Bool) : BeanKeyState :=
  { state with
    typoSelection :=
      min (if forward then state.typoSelection + 1 else state.typoSelection - 1)
        (state.typoCandidates.length - 1) }.displayTypoCorrections

def word (state : BeanKeyState) (selection : Option Nat) : Option CandidateWord := do
  let candidates ← state.inputContext.panel.candidateList
  candidates.words[← selection]?

end BeanKeyState

/-! ### The engine and its connection -/

/-- The engine, with the sessions that the daemon holds for its connection and the messages it
handled for the engine so far. -/
structure BeanKeyEngine where
  runtimeRoot : Text
  learningDirectory : Text
  connected : Bool := false
  connectionGeneration : Nat := 0
  preparing : Bool := false
  nextSessionId : Nat := 1
  sessions : Sessions := Sessions.fresh
  handled : List Handled := []
  /-- How many calls have gone outside. -/
  time : Nat := 0

section
variable (config : EngineConfig) (outside : Nat → Outside)

namespace BeanKeyEngine

/-- The daemon drops the sessions of a connection with it. -/
def disconnect (engine : BeanKeyEngine) : BeanKeyEngine :=
  { engine with connected := false, sessions := Sessions.fresh }

/-- A new connection: another generation, and no session yet. -/
def connect (engine : BeanKeyEngine) : BeanKeyEngine :=
  { engine with
    connected := true
    connectionGeneration := engine.connectionGeneration + 1
    sessions := Sessions.fresh }

/-- `Client::request`, without the bytes. Whatever fails, the connection is closed. -/
def request (engine : BeanKeyEngine) (envelope : Envelope) : Option Envelope × BeanKeyEngine :=
  if engine.connected then
    let now := outside engine.time
    let engine := { engine with time := engine.time + 1 }
    if now.reaches then
      let (response, sessions) := handle config now.services engine.sessions envelope
      let delivered := now.returns ∧ response.requestId = envelope.requestId ∧
        response.sessionId = envelope.sessionId
      let engine :=
        { engine with
          sessions
          handled := engine.handled ++ [⟨engine.sessions, envelope, response, delivered⟩] }
      if delivered then (some response, engine) else (none, engine.disconnect)
    else (none, engine.disconnect)
  else (none, engine)

/-- Where the daemon does not answer at once it is started, and the key is not waited for. -/
def ensureConnected (engine : BeanKeyEngine) : Bool × BeanKeyEngine :=
  if engine.runtimeRoot = [] then (false, engine)
  else if engine.connected then (true, engine)
  else
    let now := outside engine.time
    let engine := { engine with time := engine.time + 1 }
    if engine.preparing ∨ now.delays then (false, engine)
    else if now.accepts then (true, engine.connect)
    else if engine.learningDirectory = [] then (false, engine)
    else (false, { engine with preparing := true })

/-- What the thread that waited for the daemon schedules at its end. -/
def prepared (engine : BeanKeyEngine) (ready : Bool) : BeanKeyEngine :=
  if engine.preparing then
    let engine := { engine with preparing := false }
    if ready then engine.connect else engine
  else engine

def surroundingText (engine : BeanKeyEngine) : SurroundingText :=
  let source := (outside engine.time).surroundingText
  if source.available then source else ⟨false, [], 0, 0⟩

end BeanKeyEngine

/-! ### What an input context does -/

structure Context where
  engine : BeanKeyEngine
  state : BeanKeyState

namespace Context

def invalidateStaleSession (context : Context) : Context :=
  if context.state.started ∧
      (context.state.connectionGeneration ≠ context.engine.connectionGeneration ∨
        !context.engine.connected) then
    { context with state := context.state.dropSession }
  else context

def failSession (context : Context) : Context where
  engine := context.engine.disconnect
  state := context.state.dropSession

/-- The answer to a message under the next number of the session. -/
def request (context : Context) (payload : Payload) : Option Payload × Context :=
  let envelope : Envelope := ⟨context.state.nextRequestId, context.state.sessionId, some payload⟩
  let state := { context.state with nextRequestId := context.state.nextRequestId + 1 }
  let (response, engine) := context.engine.request config outside envelope
  (response.bind Envelope.payload, { engine, state })

def send (context : Context) (payload : Payload) : Bool × Context :=
  let (response, context) := context.request config outside payload
  match response with
  | some (.stateResponse response) =>
    (response.consumed, { context with state := context.state.apply response })
  | _ => (false, context.failSession)

/-- The context with a session id of its own, on the connection there is. -/
def opened (context : Context) : Context where
  engine := { context.engine with nextSessionId := context.engine.nextSessionId + 1 }
  state :=
    { context.state with
      connectionGeneration := context.engine.connectionGeneration
      sessionId := toString context.engine.nextSessionId
      nextRequestId := 1 }

def start (context : Context) : Bool × Context :=
  let context := context.invalidateStaleSession
  if context.state.started then (true, context)
  else
    let (connected, engine) := context.engine.ensureConnected outside
    let context : Context := { engine, state := context.state.clearUi }
    if connected then
      let surroundingText := context.engine.surroundingText outside
      let (response, context) := context.opened.request config outside
        (.startSession ⟨.unspecified, some surroundingText, .unspecified, []⟩)
      match response with
      | some (.stateResponse response) =>
        (true, { context with state := { context.state with started := true }.apply response })
      | _ =>
        (false,
          { engine := context.engine.disconnect, state := { context.state with sessionId := "" } })
    else (false, context)

def focusIn (context : Context) : Bool × Context :=
  let (started, context) := context.start config outside
  if started then
    (true,
      if context.state.typoCandidates = [] then context
      else { context with state := context.state.apply context.state.normalState })
  else (false, context)

def focusOut (context : Context) (commitComposition : Bool) : Context :=
  let context := context.invalidateStaleSession
  let context :=
    if commitComposition ∧ context.state.started then
      (context.send config outside .commitComposition).2
    else context
  let context :=
    if context.state.started ∧ context.engine.connected then
      (context.request config outside .endSession).2
    else context
  { context with state := context.state.dropSession }

/-- What every request of the user does first: without a session, or where `valid` fails, nothing
is asked. -/
def whenStarted (context : Context) (valid : BeanKeyState → Bool)
    (next : Context → Bool × Context) : Bool × Context :=
  let (started, context) := context.start config outside
  if started ∧ valid context.state then next context else (false, context.failSession)

def selectCandidate (context : Context) (index : Nat) : Bool × Context :=
  context.whenStarted config outside (fun state => index ∈ state.candidateIndices)
    fun context => context.send config outside (.selectCandidate index)

def forgetCandidate (context : Context) (index : Nat) : Bool × Context :=
  context.whenStarted config outside (fun state => index ∈ state.candidateIndices)
    fun context => context.send config outside (.forgetCandidate index)

def selectTypoCorrection (context : Context) (index : Nat) : Bool × Context :=
  context.whenStarted config outside (fun state => index < state.typoCandidates.length)
    fun context => context.send config outside (.selectTypoCorrection index)

def resetLearning (context : Context) : Bool × Context :=
  context.whenStarted config outside (fun _ => true)
    fun context => context.send config outside .resetLearning

def requestTypoCorrections (context : Context) : Bool × Context :=
  context.whenStarted config outside (fun _ => true) fun context =>
    let (response, context) := context.request config outside .requestTypoCorrections
    match response with
    | some (.typoCorrectionResponse candidates) =>
      (true, { context with state := context.state.showTypoCorrections candidates })
    | _ => (false, context.failSession)

/-- The answer of `send` is whether the daemon consumed the request. -/
def reset (context : Context) : Context :=
  let context := context.invalidateStaleSession
  if context.state.started then
    let (consumed, context) := context.send config outside .resetSession
    if consumed then context else context.failSession
  else { context with state := context.state.clearUi }

def select (context : Context) : CandidateWord → Bool × Context
  | .candidate index _ _ => context.selectCandidate config outside index
  | .typoCorrection index _ _ => context.selectTypoCorrection config outside index

def sendKey (context : Context) (key : KeyEvent) : Bool × Context :=
  context.send config outside
    (.keyEvent { key with surroundingText := some (context.engine.surroundingText outside) })

/-- A key while the typo list is shown: ordinary keys of the daemon would discard its list. -/
def typoKey (context : Context) (key : KeyEvent) : Bool × Context :=
  match key.action with
  | .down => (true, { context with state := context.state.moveTypoSelection true })
  | .up => (true, { context with state := context.state.moveTypoSelection false })
  | .space => (true, { context with state := context.state.moveTypoSelection !key.shift })
  | .enter => context.selectTypoCorrection config outside context.state.typoSelection
  | _ => context.sendKey config outside key

/-- `key` is what `populateKeyEvent` makes of the event, `selection` its selection digit. -/
def processKey (context : Context) (isRelease : Bool) (key : KeyEvent) (selection : Option Nat) :
    Bool × Context :=
  if isRelease ∨ key.action = .unspecified then (false, context)
  else
    context.whenStarted config outside (fun _ => true) fun context =>
      match context.state.word selection with
      | some (.typoCorrection index _ _) => context.selectTypoCorrection config outside index
      | word =>
        match if 0 ≤ context.state.selectedCandidate then word else none with
        | some (.candidate index _ _) => context.selectCandidate config outside index
        | _ =>
          if context.state.typoCandidates = [] then context.sendKey config outside key
          else context.typoKey config outside key

inductive Operation where
  | focusIn
  | focusOut (commitComposition : Bool)
  | processKey (isRelease : Bool) (key : KeyEvent) (selection : Option Nat)
  | select (word : CandidateWord)
  | forgetCandidate (index : Nat)
  | requestTypoCorrections
  | resetLearning
  | reset

def perform (context : Context) : Operation → Context
  | .focusIn => (context.focusIn config outside).2
  | .focusOut commitComposition => context.focusOut config outside commitComposition
  | .processKey isRelease key selection =>
      (context.processKey config outside isRelease key selection).2
  | .select word => (context.select config outside word).2
  | .forgetCandidate index => (context.forgetCandidate config outside index).2
  | .requestTypoCorrections => (context.requestTypoCorrections config outside).2
  | .resetLearning => (context.resetLearning config outside).2
  | .reset => context.reset config outside

end Context

/-! ### Runs -/

structure Addon (Name : Type) where
  engine : BeanKeyEngine
  states : Name → BeanKeyState := fun _ => {}

inductive Event (Name : Type) where
  | operate (name : Name) (operation : Context.Operation)
  | prepared (ready : Bool)

namespace Addon
variable {Name : Type} [DecidableEq Name]

def step (addon : Addon Name) : Event Name → Addon Name
  | .operate name operation =>
    let context := Context.perform config outside ⟨addon.engine, addon.states name⟩ operation
    { engine := context.engine, states := Function.update addon.states name context.state }
  | .prepared ready => { addon with engine := addon.engine.prepared ready }

def run (addon : Addon Name) (events : List (Event Name)) : Addon Name :=
  events.foldl (step config outside) addon

end Addon

end

end BeanKey.Fcitx
