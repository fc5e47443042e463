import BeanKey.Library.Window
import BeanKey.Client.TextInput
import BeanKey.Engine.Welcome

/-! The input method of macOS: an input session for each text field, the candidate panel of each,
and the connection they share. What the outside does at each request is a parameter, and so is where
the identifiers of the sessions come from. -/
namespace BeanKey.Macos
open Engine Protocol Client

/-- What happens outside of the process at one of its requests. -/
structure Outside where
  /-- The message reaches the daemon, and its answer comes back in time. -/
  reaches : Bool
  returns : Bool
  services : Services
  surroundingText : SurroundingText
  /-- The text client takes underlines. -/
  underlines : Bool

/-! ### The text client -/

inductive UnderlineStyle where
  | single
  | thick
  deriving DecidableEq

structure MarkedText where
  text : Text
  underlines : List (Option UnderlineStyle)
  deriving DecidableEq

namespace MarkedText

def plain (text : Text) : MarkedText := ⟨text, List.replicate (Utf16.encode text).length none⟩

def addUnderline (marked : MarkedText) (style : UnderlineStyle) (length : Nat) : MarkedText :=
  { marked with
    underlines := List.replicate length (some style) ++ marked.underlines.drop length }

end MarkedText

def markedPreedit (preedit : Text) (underlines : Bool) (highlighted : Nat) : MarkedText :=
  let marked := MarkedText.plain preedit
  if underlines then
    let marked := marked.addUnderline .single (Utf16.encode preedit).length
    if highlighted ≠ 0 then marked.addUnderline .thick highlighted else marked
  else marked

inductive ClientCall where
  | insertText (text : Text)
  /-- Whether underlines are among the attributes. -/
  | validAttributesForMarkedText (underlines : Bool)
  | setMarkedText (marked : MarkedText) (cursor : Nat)
  deriving DecidableEq

/-- The calls that show a state; `none` is the source's `false`, after no call. -/
def applyText (state : StateResponse) (underlines previousMarked : Bool) :
    Option (List ClientCall) := do
  let preedit := Utf16.encode state.preedit
  let cursor ← utf16Offset (some preedit) state.preeditCursor
  let highlighted ← utf16Offset (some preedit) state.highlightedPreeditLength
  let committed := if state.commit = [] then [] else [.insertText state.commit]
  return committed ++
    if state.preedit ≠ [] then
      [.validAttributesForMarkedText underlines,
        .setMarkedText (markedPreedit state.preedit underlines highlighted) cursor]
    else if previousMarked ∧ state.commit = [] then [.setMarkedText (.plain []) 0]
    else []

/-! ### The panel -/

def pageSize : Nat := 9

structure CandidateRow where
  text : Text
  annotation : Text
  deriving DecidableEq

/-- The panel, with the rows it displays; without rows and a prediction it is not on the screen. -/
structure CandidatePanel where
  indices : List Nat := []
  windowStart : Nat := 0
  selecting : Bool := false
  typoCandidates : List TypoCorrectionCandidate := []
  typoSelection : Nat := 0
  rows : List CandidateRow := []
  selected : Int := 0
  prediction : Text := []
  /-- The menu of a row: it can be forgotten, and its typos can be corrected. -/
  learning : Bool := false
  typo : Bool := false

def candidateRow (candidate : Protocol.Candidate) : CandidateRow :=
  ⟨candidate.text, candidate.annotation⟩

def typoRow (correction : TypoCorrectionCandidate) : CandidateRow :=
  ⟨correction.correctedInput, correction.convertedText⟩

namespace CandidatePanel

def cleared : CandidatePanel := {}

def candidateForDigit (panel : CandidatePanel) (digit : Nat) : Option Nat :=
  if panel.selecting then panel.indices[digit]? else none

def windowOf (panel : CandidatePanel) (state : StateResponse) : Nat :=
  if state.candidateWindow = .selecting then
    let start := if panel.typoCandidates = [] then panel.windowStart else 0
    if 0 ≤ state.selectedCandidate then
      Window.reveal pageSize start state.selectedCandidate.toNat
    else start
  else 0

def shownCandidates (state : StateResponse) (windowStart : Nat) : List Protocol.Candidate :=
  match state.candidateWindow with
  | .hidden => []
  | .preview => Window.rows 1 windowStart state.candidates
  | .selecting => Window.rows pageSize windowStart state.candidates

def showState (panel : CandidatePanel) (state : StateResponse) : CandidatePanel :=
  let windowStart := panel.windowOf state
  let shown := shownCandidates state windowStart
  { indices := shown.map Protocol.Candidate.index
    windowStart
    selecting := state.candidateWindow = .selecting
    rows := shown.map candidateRow
    selected := state.selectedCandidate - windowStart
    prediction := state.prediction.elim [] fun prediction => "→ ".toList ++ prediction.displayText
    learning := state.learningWritable
    typo := state.lmTypoAvailable }

def displayTypos (panel : CandidatePanel) : CandidatePanel :=
  let shown := Window.rows pageSize panel.windowStart panel.typoCandidates.zipIdx
  { panel with
    indices := shown.map Prod.snd
    rows := shown.map (typoRow ∘ Prod.fst)
    selected := panel.typoSelection - panel.windowStart
    prediction := []
    learning := false
    typo := false }

def showTypos (panel : CandidatePanel) (typos : List TypoCorrectionCandidate) : CandidatePanel :=
  { panel with
    typoCandidates := typos
    typoSelection := 0
    windowStart := 0
    selecting := typos ≠ [] }.displayTypos

def moveTypoSelection (panel : CandidatePanel) (forward : Bool) : CandidatePanel :=
  let typoSelection :=
    if forward then min (panel.typoSelection + 1) (panel.typoCandidates.length - 1)
    else panel.typoSelection - 1
  { panel with
    typoSelection
    windowStart := Window.reveal pageSize panel.windowStart typoSelection }.displayTypos

end CandidatePanel

/-! ### The connection -/

/-- The connection, with the sessions that the daemon holds for it and the messages it handled so
far. -/
structure DaemonConnection where
  ready : Bool := false
  /-- The generation in which a client is prepared. -/
  preparing : Option Nat := none
  generation : Nat := 0
  sessions : Sessions := Sessions.fresh
  handled : List Handled := []
  /-- How many identifiers have been made, and how many requests. -/
  issued : Nat := 0
  time : Nat := 0

section
variable (config : EngineConfig) (uuid : Nat → String) (outside : Nat → Outside)

namespace DaemonConnection

def prepare (connection : DaemonConnection) : DaemonConnection :=
  if connection.ready ∨ connection.preparing.isSome then connection
  else { connection with preparing := some connection.generation }

/-- What the thread that prepared a client schedules at its end; a client of an old generation is
dropped. -/
def prepared (connection : DaemonConnection) (connected : Bool) : DaemonConnection :=
  match connection.preparing with
  | none => connection
  | some generation =>
    if generation ≠ connection.generation ∨ !connected then { connection with preparing := none }
    else { connection with preparing := none, ready := true, sessions := Sessions.fresh }

def disconnect (connection : DaemonConnection) : DaemonConnection :=
  { connection with
    ready := false
    generation := connection.generation + 1
    sessions := Sessions.fresh }

/-- An answer that is neither a state nor a list of corrections ends the connection too. -/
def request (connection : DaemonConnection) (envelope : Envelope) :
    Option Payload × DaemonConnection :=
  if connection.ready then
    let now := outside connection.time
    let connection := { connection with time := connection.time + 1 }
    if now.reaches then
      let (response, sessions) := handle config now.services connection.sessions envelope
      let delivered := now.returns ∧ response.requestId = envelope.requestId ∧
        response.sessionId = envelope.sessionId
      let connection :=
        { connection with
          sessions
          handled := connection.handled ++ [⟨connection.sessions, envelope, response, delivered⟩] }
      match if delivered then response.payload else none with
      | some (.stateResponse state) => (some (.stateResponse state), connection)
      | some (.typoCorrectionResponse candidates) =>
        (some (.typoCorrectionResponse candidates), connection)
      | _ => (none, connection.disconnect)
    else (none, connection.disconnect)
  else (none, connection)

end DaemonConnection

/-! ### An input session -/

structure InputSession where
  panel : CandidatePanel := {}
  /-- Whether there is a text client, and what it was asked so far. -/
  textClient : Bool := false
  calls : List ClientCall := []
  sessionId : String := ""
  nextRequest : Nat := 0
  generation : Nat := 0
  state : StateResponse := {}

def InputSession.clear (session : InputSession) : InputSession :=
  { session with
    calls :=
      if session.textClient ∧ session.state.preedit ≠ [] then
        session.calls ++ [.setMarkedText (.plain []) 0]
      else session.calls
    state := {}
    sessionId := ""
    panel := .cleared }

structure KeyPress where
  isKeyDown : Bool
  key : KeyEvent
  command : Bool
  digit : Option Nat

structure Context where
  connection : DaemonConnection
  session : InputSession

namespace Context

def fail (context : Context) : Context where
  connection := context.connection.disconnect
  session := context.session.clear

def surroundingText (context : Context) : SurroundingText :=
  let source := (outside context.connection.time).surroundingText
  if source.available then source else ⟨false, [], 0, 0⟩

/-- The answer to a message under the next number of the session. -/
def request (context : Context) (payload : Payload) : Option Payload × Context :=
  let envelope : Envelope := ⟨context.session.nextRequest, context.session.sessionId, some payload⟩
  let session := { context.session with nextRequest := context.session.nextRequest + 1 }
  let (response, connection) := context.connection.request config outside envelope
  (response, { connection, session })

def current (context : Context) : Context :=
  if context.session.generation ≠ context.connection.generation then
    { context with session := context.session.clear }
  else context

def opened (context : Context) : Context where
  connection := { context.connection with issued := context.connection.issued + 1 }
  session :=
    { context.session with
      generation := context.connection.generation
      sessionId := uuid context.connection.issued
      nextRequest := 1 }

def start (context : Context) : Bool × Context :=
  let context := context.current
  if context.session.sessionId ≠ "" then (true, context)
  else if !context.connection.ready then
    (false, { context with connection := context.connection.prepare })
  else
    let (response, context) := (context.opened uuid).request config outside
      (.startSession ⟨.unspecified, some (context.surroundingText outside), .unspecified, []⟩)
    match response with
    | some (.stateResponse state) =>
      (true, { context with session := { context.session with state } })
    | _ => (false, context.fail)

def send (context : Context) (payload : Payload) : Bool × Context :=
  let underlines := (outside context.connection.time).underlines
  let (response, context) := context.request config outside payload
  match response with
  | some (.stateResponse state) =>
    match applyText state underlines (context.session.state.preedit ≠ []) with
    | some calls =>
      (state.consumed,
        { context with
          session :=
            { context.session with
              calls := context.session.calls ++ calls
              state
              panel := context.session.panel.showState state } })
    | none => (false, context.fail)
  | _ => (false, context.fail)

def whenStarted (context : Context) (next : Context → Bool × Context) : Bool × Context :=
  if context.session.textClient then
    let (started, context) := context.start config uuid outside
    if started then next context else (false, context)
  else (false, context)

def select (context : Context) (index : Nat) : Bool × Context :=
  context.whenStarted config uuid outside fun context =>
    context.send config outside
      (if context.session.panel.typoCandidates = [] then .selectCandidate index
      else .selectTypoCorrection index)

def forget (context : Context) (index : Nat) : Bool × Context :=
  context.whenStarted config uuid outside fun context =>
    context.send config outside (.forgetCandidate index)

def requestTypos (context : Context) : Bool × Context :=
  context.whenStarted config uuid outside fun context =>
    let (response, context) := context.request config outside .requestTypoCorrections
    match response with
    | some (.typoCorrectionResponse candidates) =>
      (true,
        { context with
          session :=
            { context.session with
              panel :=
                if candidates ≠ [] then context.session.panel.showTypos candidates
                else context.session.panel.showState context.session.state } })
    | _ => (false, context.fail)

def resetLearning (context : Context) : Bool × Context :=
  context.whenStarted config uuid outside fun context => context.send config outside .resetLearning

def commit (context : Context) : Context :=
  let context := { context with session := { context.session with textClient := true } }
  if context.session.sessionId = "" ∨ context.session.generation ≠
    context.connection.generation then
    { context with session := context.session.clear }
  else (context.send config outside .commitComposition).2

def deactivate (context : Context) : Context :=
  let context := context.commit config outside
  let context :=
    if context.session.sessionId ≠ "" ∧ context.connection.ready then
      (context.request config outside .endSession).2
    else context
  { context with session := { context.session.clear with textClient := false } }

def activate (context : Context) : Context where
  connection := context.connection.prepare
  session := { context.session with panel := .cleared }

def sendKey (context : Context) (key : KeyEvent) : Bool × Context :=
  context.send config outside
    (.keyEvent { key with surroundingText := some (context.surroundingText outside) })

def moveTypoSelection (context : Context) (forward : Bool) : Bool × Context :=
  (true,
    { context with
      session :=
        { context.session with panel := context.session.panel.moveTypoSelection forward } })

/-- A key while the typo list is shown: ordinary keys of the daemon would discard its list. -/
def typoKey (context : Context) (key : KeyEvent) : Bool × Context :=
  match key.action with
  | .down => context.moveTypoSelection true
  | .up => context.moveTypoSelection false
  | .space => context.moveTypoSelection !key.shift
  | .enter => context.select config uuid outside context.session.panel.typoSelection
  | _ => context.sendKey config outside key

def pressed (context : Context) (press : KeyPress) : Bool × Context :=
  match press.digit.bind context.session.panel.candidateForDigit with
  | some index => context.select config uuid outside index
  | none =>
    if context.session.panel.typoCandidates = [] then context.sendKey config outside press.key
    else context.typoKey config uuid outside press.key

def handleEvent (context : Context) (press : KeyPress) : Bool × Context :=
  if press.isKeyDown then
    let context := { context with session := { context.session with textClient := true } }
    if press.key.action = .unspecified then
      (false, if press.command then context.commit config outside else context)
    else
      let (started, context) := context.start config uuid outside
      if started then context.pressed config uuid outside press
      else (false, { context with session := context.session.clear })
  else (false, context)

/-- What the system and the user ask of an input session. The last three are clicks on the panel. -/
inductive Operation where
  | activate
  | deactivate
  | commit
  | handleEvent (press : KeyPress)
  | resetLearning
  | choose (row : Nat)
  | forget (row : Nat)
  | requestTypos

def perform (context : Context) : Operation → Context
  | .activate => context.activate
  | .deactivate => context.deactivate config outside
  | .commit => context.commit config outside
  | .handleEvent press => (context.handleEvent config uuid outside press).2
  | .resetLearning => (context.resetLearning config uuid outside).2
  | .choose row =>
    match context.session.panel.indices[row]? with
    | some index => (context.select config uuid outside index).2
    | none => context
  | .forget row =>
    match if context.session.panel.learning then context.session.panel.indices[row]? else none with
    | some index => (context.forget config uuid outside index).2
    | none => context
  | .requestTypos =>
    if context.session.panel.typo ∧ context.session.panel.rows ≠ [] then
      (context.requestTypos config uuid outside).2
    else context

end Context

/-! ### Runs -/

structure InputMethod (Name : Type) where
  connection : DaemonConnection := {}
  sessions : Name → InputSession := fun _ => {}

inductive Event (Name : Type) where
  | operate (name : Name) (operation : Context.Operation)
  | prepared (connected : Bool)

namespace InputMethod
variable {Name : Type} [DecidableEq Name]

def step (method : InputMethod Name) : Event Name → InputMethod Name
  | .operate name operation =>
    let context := Context.perform config uuid outside ⟨method.connection, method.sessions name⟩
      operation
    { connection := context.connection
      sessions := Function.update method.sessions name context.session }
  | .prepared connected => { method with connection := method.connection.prepared connected }

def run (method : InputMethod Name) (events : List (Event Name)) : InputMethod Name :=
  events.foldl (step config uuid outside) method

end InputMethod

end

end BeanKey.Macos
