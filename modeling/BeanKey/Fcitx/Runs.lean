import BeanKey.Fcitx.Operations

/-! Runs of the addon: its input contexts take turns in any order on the one connection. -/
namespace BeanKey.Fcitx
open Engine Protocol Leasing

namespace Addon
variable {Name : Type} {config : EngineConfig} (outside : Nat → Outside) {addon : Addon Name}

def context (addon : Addon Name) (name : Name) : Context := ⟨addon.engine, addon.states name⟩

structure Sound (config : EngineConfig) (addon : Addon Name) : Prop where
  engine : addon.engine.Sound config
  ledger : Ledger addon.engine.link fun name => (addon.states name).lease
  tidy : ∀ name, (addon.states name).Tidy

theorem Sound.context (h : addon.Sound config) (name : Name) :
    (addon.context name).Sound config addon.engine.link.era
      (Ledger.others addon.engine.link (addon.states name).lease) :=
  ⟨h.engine, h.ledger.shares name, h.tidy name⟩

def loaded (runtimeRoot learningDirectory : Text) : Addon Name where
  engine := { runtimeRoot, learningDirectory }

theorem loaded_sound (runtimeRoot learningDirectory : Text) :
    (loaded runtimeRoot learningDirectory : Addon Name).Sound config where
  engine := ⟨by simp [loaded, Sessions.fresh], by simp [loaded, Sessions.fresh], fun _ => rfl,
    by simp [loaded]⟩
  ledger := ⟨by simp [loaded, BeanKeyState.lease], by simp [loaded, BeanKeyState.lease],
    by simp [loaded, BeanKeyState.lease], by simp [loaded, BeanKeyEngine.link, Sessions.fresh]⟩
  tidy := fun _ => show (BeanKeyState.clearUi {}).Tidy from BeanKeyState.tidy_clearUi

theorem Sound.prepared (h : addon.Sound config) (ready : Bool) :
    ({ addon with engine := addon.engine.prepared ready } : Addon Name).Sound config := by
  unfold BeanKeyEngine.prepared
  split
  · dsimp only
    cases ready with
    | true =>
      exact ⟨h.engine.fresh rfl rfl,
        h.ledger.ended addon.engine.connect_later fun _ => rfl, h.tidy⟩
    | false => exact ⟨⟨h.engine.inStep, h.engine.named, h.engine.closed, h.engine.welcome⟩,
        h.ledger, h.tidy⟩
  · exact h

variable [DecidableEq Name]

theorem Sound.step (h : addon.Sound config) (event : Event Name) :
    (addon.step config outside event).Sound config := by
  cases event with
  | prepared ready => exact h.prepared ready
  | operate name operation =>
    have hperformed := (h.context name).perform outside operation
    refine ⟨hperformed.engine, ?_, fun someone => ?_⟩
    · have hledger := h.ledger.update hperformed.shares
      have hleases : (fun someone =>
          ((addon.step config outside (.operate name operation)).states someone).lease) =
            Function.update (fun someone => (addon.states someone).lease) name
              ((addon.context name).perform config outside operation).state.lease :=
        funext fun someone =>
          Function.apply_update (fun _ state => BeanKeyState.lease state) addon.states
            name _ someone
      rw [hleases]
      exact hledger
    · by_cases hsame : someone = name
      · subst hsame
        simpa [Addon.step, Addon.context] using hperformed.tidy
      · simpa [Addon.step, hsame] using h.tidy someone

theorem Sound.run (h : addon.Sound config) (events : List (Event Name)) :
    (addon.run config outside events).Sound config := by
  induction events generalizing addon with
  | nil => exact h
  | cons event events ih => exact ih (h.step outside event)

variable (config) (runtimeRoot learningDirectory : Text) (events : List (Event Name))

theorem run_sound :
    ((loaded runtimeRoot learningDirectory).run config outside events).Sound config :=
  (loaded_sound runtimeRoot learningDirectory).run outside events

end Addon

/-! ### What the daemon is sent, and what it holds -/

def answering : Outside where
  accepts := true
  delays := false
  reaches := true
  returns := true
  services := kanaServices
  surroundingText := ⟨false, [], 0, 0⟩

def pressKey (action : UserAction) (text : Text) : Event Bool :=
  .operate true (.processKey false { action, text } none)

def kanaEvents : List (Event Bool) :=
  [.operate true .focusIn, pressKey .input ['か'], pressKey .input ['な'], pressKey .space [],
    pressKey .space [], .operate false .focusIn]

def kanaAddon : Addon Bool :=
  (Addon.loaded ['/'] ['/']).run plainConfig (fun _ => answering) kanaEvents

section
variable {Name : Type} [DecidableEq Name] (config : EngineConfig) (outside : Nat → Outside)
  (runtimeRoot learningDirectory : Text)

/-- Every message of a run starts a session under a free name, or asks a session the daemon holds,
under a new number, and selects only what that session has to select. -/
theorem messages_welcome (events : List (Event Name)) :
    ∀ handled ∈ ((Addon.loaded runtimeRoot learningDirectory).run config outside
      events).engine.handled, Welcome handled.sessions handled.envelope :=
  (Addon.run_sound config outside runtimeRoot learningDirectory events).engine.welcome

theorem messages_welcome_kana :
    ∃ handled ∈ kanaAddon.engine.handled, Welcome handled.sessions handled.envelope := by
  have hlen : kanaAddon.engine.handled.length = 6 := by decide +kernel
  have hwelcome := messages_welcome plainConfig (fun _ => answering) ['/'] ['/'] kanaEvents
  obtain ⟨handled, hin⟩ := List.exists_mem_of_length_eq_add_one hlen
  exact ⟨handled, hin, hwelcome handled hin⟩

/-- After every run the daemon holds the sessions of the live input contexts, one for each, as their
contexts know them, and no others. -/
theorem sessions_live (events : List (Event Name)) :
    let addon := (Addon.loaded runtimeRoot learningDirectory).run config outside events
    (∀ name, (addon.context name).Live → ∃ session,
      addon.engine.sessions (addon.states name).sessionId = some session ∧
        (addon.states name).Agrees session) ∧
    ∀ sessionId session, addon.engine.sessions sessionId = some session →
      ∃! name, (addon.context name).Live ∧ (addon.states name).sessionId = sessionId := by
  intro addon
  have hsound : addon.Sound config :=
    Addon.run_sound config outside runtimeRoot learningDirectory events
  refine ⟨fun name hlive => hlive.session (hsound.context name), ?_⟩
  intro sessionId session hsession
  obtain ⟨name, lease, hin, hcurrent, hname⟩ := hsound.ledger.owned sessionId session hsession
  have hlive : (addon.context name).Live ∧ (addon.states name).sessionId = sessionId := by
    unfold BeanKeyState.lease at hin
    split at hin
    · next hstarted =>
      cases hin
      simp only [Lease.Current, BeanKeyEngine.link] at hcurrent
      split at hcurrent
      · next hconnected =>
        exact ⟨⟨hstarted, hconnected, by simpa [Addon.context] using hcurrent⟩, hname⟩
      · omega
    · cases hin
  refine ⟨name, hlive, ?_⟩
  intro someone hsomeone
  exact hsound.ledger.apart someone name _ (BeanKeyState.lease_started hsomeone.1.started) _
    (BeanKeyState.lease_started hlive.1.started) hsomeone.1.current hlive.1.current
    (hsomeone.2.trans hlive.2.symm)

theorem kanaAddon_live (name : Bool) : (kanaAddon.context name).Live := by
  cases name <;> exact ⟨by decide +kernel, by decide +kernel, by decide +kernel⟩

/-- The daemon holds the sessions of both contexts, and each is the session of one of them. -/
theorem sessions_live_kana :
    ∃ session, kanaAddon.engine.sessions (kanaAddon.states true).sessionId = some session ∧
      ∃! name, (kanaAddon.context name).Live ∧
        (kanaAddon.states name).sessionId = (kanaAddon.states true).sessionId := by
  have hlive := sessions_live plainConfig (fun _ => answering) ['/'] ['/'] kanaEvents
  have hboth := kanaAddon_live
  unfold kanaAddon at *
  generalize (Addon.loaded ['/'] ['/']).run plainConfig (fun _ => answering) kanaEvents = addon at *
  obtain ⟨session, hsession, -⟩ := hlive.1 true (hboth true)
  exact ⟨session, hsession, hlive.2 _ session hsession⟩

end

end BeanKey.Fcitx
