import BeanKey.Macos.Operations

/-! Runs of the input method: its input sessions take turns in any order on the one connection. -/
namespace BeanKey.Macos
open Engine Protocol Client Leasing

namespace InputMethod
variable {Name : Type} {config : EngineConfig} {uuid : Nat → String} (outside : Nat → Outside)
  {method : InputMethod Name}

def context (method : InputMethod Name) (name : Name) : Context :=
  ⟨method.connection, method.sessions name⟩

structure Sound (config : EngineConfig) (uuid : Nat → String)
    (method : InputMethod Name) : Prop where
  connection : method.connection.Sound config uuid
  ledger : Ledger method.connection.link fun name => (method.sessions name).lease
  tidy : ∀ name, (method.sessions name).Tidy

theorem Sound.context (h : method.Sound config uuid) (name : Name) :
    (method.context name).Sound config uuid method.connection.link.era
      (Ledger.others method.connection.link (method.sessions name).lease) :=
  ⟨h.connection, h.ledger.shares name, h.tidy name⟩

theorem launched_sound : ({} : InputMethod Name).Sound config uuid where
  connection := ⟨by simp [Sessions.fresh], by simp [Sessions.fresh], fun _ => rfl,
    (fun hready => by cases hready), by simp⟩
  ledger := ⟨by simp [InputSession.lease], by simp [InputSession.lease],
    by simp [InputSession.lease], by simp [DaemonConnection.link, Sessions.fresh]⟩
  tidy := fun _ => ⟨CandidatePanel.tidy_cleared _,
    displays_of_blank (fun _ _ hfield => hfield) rfl (.of_empty rfl rfl),
    fun hname => absurd rfl hname, fun _ => ⟨rfl, rfl⟩⟩

variable [DecidableEq Name]

theorem Sound.step (h : method.Sound config uuid) (hunique : Unique uuid) (event : Event Name) :
    (method.step config uuid outside event).Sound config uuid := by
  cases event with
  | prepared connected =>
    obtain ⟨hsound, hlink⟩ := h.connection.clientPrepared connected
    refine ⟨hsound, ?_, h.tidy⟩
    show Ledger (method.connection.prepared connected).link _
    rw [hlink]
    exact h.ledger
  | operate name operation =>
    have hperformed := (h.context name).perform outside hunique operation
    refine ⟨hperformed.connection, ?_, fun someone => ?_⟩
    · have hledger := h.ledger.update hperformed.shares
      have hleases : (fun someone =>
          ((method.step config uuid outside (.operate name operation)).sessions someone).lease) =
            Function.update (fun someone => (method.sessions someone).lease) name
              ((method.context name).perform config uuid outside operation).session.lease :=
        funext fun someone =>
          Function.apply_update (fun _ session => InputSession.lease session) method.sessions name _
            someone
      rw [hleases]
      exact hledger
    · by_cases hsame : someone = name
      · subst hsame
        simpa [InputMethod.step, InputMethod.context] using hperformed.tidy
      · simpa [InputMethod.step, hsame] using h.tidy someone

theorem Sound.run (h : method.Sound config uuid) (hunique : Unique uuid)
    (events : List (Event Name)) :
    (method.run config uuid outside events).Sound config uuid := by
  induction events generalizing method with
  | nil => exact h
  | cons event events ih => exact ih (h.step outside hunique event)

theorem run_sound (config : EngineConfig) (hunique : Unique uuid) (events : List (Event Name)) :
    (({} : InputMethod Name).run config uuid outside events).Sound config uuid :=
  launched_sound.run outside hunique events

end InputMethod

/-! ### Two input sessions -/

/-- As many letters as there were identifiers before, and one more. -/
def unaryUuid (number : Nat) : String := String.ofList (List.replicate (number + 1) 'u')

theorem unaryUuid_unique : Unique unaryUuid where
  injective := by
    intro first second hsame
    have hlists := congrArg List.length (String.ofList_injective hsame)
    simpa using hlists
  named := by
    intro number hnone
    have hlists := congrArg String.toList hnone
    simp [unaryUuid] at hlists

/-- A daemon that answers every request but one, over an empty dictionary. -/
def answering (lost : Nat) (time : Nat) : Outside where
  reaches := time ≠ lost
  returns := true
  services := kanaServices
  surroundingText := ⟨false, [], 0, 0⟩
  underlines := true

def pressKey (name : Bool) (action : UserAction) (text : Text) : Event Bool :=
  .operate name (.handleEvent ⟨true, { action, text }, false, none⟩)

def kanaEvents : List (Event Bool) :=
  [.operate true .activate, .prepared true, pressKey true .input ['か'], pressKey true .input ['な'],
    pressKey true .space [], pressKey true .space []]

/-- Then another input session loses the connection, and there is a new one. -/
def lostEvents : List (Event Bool) :=
  kanaEvents ++ [pressKey false .input ['か'], .operate false .activate, .prepared true]

def kanaMethod : InputMethod Bool :=
  ({} : InputMethod Bool).run plainConfig unaryUuid (answering 9) kanaEvents

def lostMethod : InputMethod Bool :=
  ({} : InputMethod Bool).run plainConfig unaryUuid (answering 5) lostEvents

section
variable {Name : Type} [DecidableEq Name] (config : EngineConfig) {uuid : Nat → String}
  (outside : Nat → Outside) (events : List (Event Name))

/-- Every message of a run starts a session under a free name, or asks a session that the daemon
holds, under a new number, for something it has; or it is the first request of a session just
started, which has nothing yet, and selects or forgets a candidate: that is refused. -/
theorem requests_expected (hunique : Unique uuid) :
    ∀ handled ∈ (({} : InputMethod Name).run config uuid outside events).connection.handled,
      Welcome handled.sessions handled.envelope ∨
      Stray handled.sessions handled.envelope ∧ ∀ services, ∃ refusal,
        (handle config services handled.sessions handled.envelope).1.payload = some refusal ∧
          Refused refusal := by
  intro handled hin
  have hexpected := (InputMethod.run_sound outside config hunique events).connection.expected
  rcases hexpected handled hin with hwelcome | hstray
  · exact .inl hwelcome
  · refine .inr ⟨hstray, fun services => ⟨_, rfl, ?_⟩⟩
    obtain ⟨held, hheld, -, hnone⟩ := hstray.session
    rw [hheld]
    obtain ⟨index, hselect | hforget⟩ := hstray.selects
    · rw [hselect]
      exact handleMessage_stray hnone ⟨index, .inl rfl⟩
    · rw [hforget]
      exact handleMessage_stray hnone ⟨index, .inr rfl⟩

/-- A row that was left from an earlier connection is chosen in a new one. -/
def strayMethod : InputMethod Bool :=
  ({} : InputMethod Bool).run plainConfig unaryUuid (answering 5)
    (lostEvents ++ [.operate true (.choose 1)])

theorem requests_expected_stray : ∃ handled ∈ strayMethod.connection.handled,
    (handled.envelope.payload matches some (.selectCandidate 1)) ∧
    (Welcome handled.sessions handled.envelope ∨
      Stray handled.sessions handled.envelope ∧ ∀ services, ∃ refusal,
        (handle plainConfig services handled.sessions handled.envelope).1.payload = some refusal ∧
          Refused refusal) := by
  have hlast : (strayMethod.connection.handled.any fun handled =>
      handled.envelope.payload matches some (.selectCandidate 1)) = true := by
    decide +kernel
  obtain ⟨handled, hin, hpayload⟩ := List.any_eq_true.mp hlast
  exact ⟨handled, hin, hpayload, requests_expected plainConfig (answering 5) _ unaryUuid_unique
    handled hin⟩

/-- After every run the daemon holds the sessions of the live input sessions, one for each, as these
know them, and no others. -/
theorem sessions_held (hunique : Unique uuid) :
    let method := ({} : InputMethod Name).run config uuid outside events
    (∀ name, (method.context name).Live → method.connection.ready = true ∧ ∃ held,
      method.connection.sessions (method.sessions name).sessionId = some held ∧
        (method.sessions name).Agrees held) ∧
    ∀ sessionId held, method.connection.sessions sessionId = some held →
      ∃! name, (method.context name).Live ∧ (method.sessions name).sessionId = sessionId := by
  intro method
  have hsound : method.Sound config uuid := InputMethod.run_sound outside config hunique events
  refine ⟨fun name hlive => ⟨hlive.ready (hsound.context name), hlive.held (hsound.context name)⟩,
    ?_⟩
  intro sessionId held hheld
  obtain ⟨name, lease, hin, hcurrent, hname⟩ := hsound.ledger.owned sessionId held hheld
  have hlive : (method.context name).Live ∧ (method.sessions name).sessionId = sessionId := by
    unfold InputSession.lease at hin
    split at hin
    · cases hin
    · next hnamed =>
      cases hin
      exact ⟨⟨hnamed, hcurrent⟩, hname⟩
  refine ⟨name, hlive, ?_⟩
  intro someone hsomeone
  exact hsound.ledger.apart someone name _ (InputSession.lease_named hsomeone.1.named) _
    (InputSession.lease_named hlive.1.named) hsomeone.1.generation hlive.1.generation
    (hsomeone.2.trans hlive.2.symm)

theorem kanaMethod_live : (kanaMethod.context true).Live :=
  ⟨by decide +kernel, by decide +kernel⟩

theorem sessions_held_kana : kanaMethod.connection.ready = true ∧ ∃ held,
    kanaMethod.connection.sessions (kanaMethod.sessions true).sessionId = some held ∧
      ∃! name, (kanaMethod.context name).Live ∧
        (kanaMethod.sessions name).sessionId = (kanaMethod.sessions true).sessionId := by
  have hsessions := sessions_held plainConfig (answering 9) kanaEvents unaryUuid_unique
  have hlive := kanaMethod_live
  unfold kanaMethod at *
  generalize ({} : InputMethod Bool).run plainConfig unaryUuid (answering 9)
    kanaEvents = method at *
  obtain ⟨hready, held, hheld, -⟩ := hsessions.1 true hlive
  exact ⟨hready, held, hheld, hsessions.2 _ held hheld⟩

/-- After every run a text client in which nothing was marked has marked the preedit of the state of
its input session and nothing else, with the cursor and, where it takes underlines, the highlighted
part where the daemon has them; without a session nothing is marked. -/
theorem preedit_marked (hunique : Unique uuid) (name : Name) (client : TextClient)
    (field : client.Field) (hfield : client.Blank field) :
    let session := (({} : InputMethod Name).run config uuid outside events).sessions name
    let preedit := Utf16.encode session.state.preedit
    (∃ cursor highlighted, utf16Offset (some preedit) session.state.preeditCursor = some cursor ∧
      utf16Offset (some preedit) session.state.highlightedPreeditLength = some highlighted ∧
      client.marked (client.after field session.calls) = (⟨session.state.preedit, underlinesOf
        (takesUnderlines session.calls) preedit.length highlighted⟩, cursor)) ∧
    (session.sessionId = "" →
      client.Blank (client.after field session.calls) ∧ session.panel = .cleared) := by
  intro session preedit
  have htidy := (InputMethod.run_sound outside config hunique events).tidy name
  constructor
  · obtain ⟨cursor, highlighted, hcursor, hhighlighted, hmarked⟩ := htidy.shown
    exact ⟨cursor, highlighted, hcursor, hhighlighted, hmarked client field hfield⟩
  · intro hname
    obtain ⟨hpanel, hstate⟩ := htidy.idle hname
    exact ⟨htidy.shown.blank (congrArg StateResponse.preedit hstate) client field hfield, hpanel⟩

def textView : TextClient where
  Field := Text × MarkedText × Nat
  insertText := fun field text => (field.1 ++ text, .plain [], 0)
  setMarkedText := fun field marked cursor => (field.1, marked, cursor)
  marked := Prod.snd
  marked_insertText := fun _ _ => rfl
  marked_setMarkedText := fun _ _ _ _ => rfl

/-- `か` is selected before `な`, behind a text that was there. -/
theorem preedit_marked_kana :
    textView.marked (textView.after (['木'], .plain [], 0) (kanaMethod.sessions true).calls) =
      (⟨['か', 'な'], [some .thick, some .single]⟩, 2) := by
  have hstate : (kanaMethod.sessions true).state.preedit = ['か', 'な'] ∧
      (kanaMethod.sessions true).state.preeditCursor = 2 ∧
      (kanaMethod.sessions true).state.highlightedPreeditLength = 1 ∧
      takesUnderlines (kanaMethod.sessions true).calls = true := by
    decide +kernel
  obtain ⟨hpreedit, hcursor, hhighlighted, hunderlines⟩ := hstate
  have hmarked :=
    (preedit_marked plainConfig (answering 9) kanaEvents unaryUuid_unique true textView
    (['木'], .plain [], 0) rfl).1
  unfold kanaMethod at *
  generalize ({} : InputMethod Bool).run plainConfig unaryUuid (answering 9)
    kanaEvents = method at *
  rw [hpreedit, hcursor, hhighlighted, hunderlines] at hmarked
  obtain ⟨cursor, highlighted, hat, hto, hmarked⟩ := hmarked
  obtain rfl : 2 = cursor := Option.some.inj hat
  obtain rfl : 1 = highlighted := Option.some.inj hto
  exact hmarked

end

end BeanKey.Macos
