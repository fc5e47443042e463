import Mathlib.Logic.Function.Basic
import Mathlib.Logic.Relation

/-! Processes that take turns on a state they share. -/
namespace Interleaving
variable {Process Local Shared : Type*} [DecidableEq Process]

structure World (Process Local Shared : Type*) where
  locals : Process → Local
  shared : Shared

inductive Step (step : Process → Local × Shared → Local × Shared → Prop) (process : Process) :
    World Process Local Shared → World Process Local Shared → Prop
  | step {world : World Process Local Shared} {next : Local} {shared : Shared} :
      step process (world.locals process, world.shared) (next, shared) →
      Step step process world ⟨Function.update world.locals process next, shared⟩

inductive Reachable (initial : Local) (begins : Shared → Prop)
    (step : Process → Local × Shared → Local × Shared → Prop) :
    World Process Local Shared → Prop
  | start {shared : Shared} : begins shared → Reachable initial begins step
    ⟨fun _ => initial, shared⟩
  | turn {before after : World Process Local Shared} (process : Process) :
      Reachable initial begins step before → Step step process before after →
      Reachable initial begins step after

variable {initial : Local} {begins : Shared → Prop}
  {step : Process → Local × Shared → Local × Shared → Prop}

/-- What every process says of itself and the shared state holds in every world, if a process keeps
its own word with its steps and does not break that of another. -/
theorem Reachable.invariant {own : Process → Local → Shared → Prop}
    (hbegins : ∀ process shared, begins shared → own process initial shared)
    (hkeeps : ∀ {process before after}, step process before after →
      own process before.1 before.2 → own process after.1 after.2)
    (hspares : ∀ {process other before after place}, step process before after →
      other ≠ process → own process before.1 before.2 → own other place before.2 →
      own other place after.2)
    {world : World Process Local Shared} (h : Reachable initial begins step world) :
    ∀ process, own process (world.locals process) world.shared := by
  induction h with
  | start hshared => exact fun process => hbegins process _ hshared
  | turn process _ hturn ih =>
    obtain ⟨hstep⟩ := hturn
    intro other
    by_cases hsame : other = process
    · subst hsame
      simpa using hkeeps hstep (ih other)
    · simpa [hsame] using hspares hstep hsame (ih process) (ih other)

def Alone (step : Process → Local × Shared → Local × Shared → Prop) (process : Process) :
    World Process Local Shared → World Process Local Shared → Prop :=
  Relation.ReflTransGen (Step step process)

theorem Reachable.alone {before after : World Process Local Shared} {process : Process}
    (h : Reachable initial begins step before) (hturns : Alone step process before after) :
    Reachable initial begins step after := by
  induction hturns with
  | refl => exact h
  | tail _ hturn ih => exact ih.turn process hturn

theorem Alone.of_steps {process : Process} {before after : Local × Shared}
    (hsteps : Relation.ReflTransGen (step process) before after)
    {world : World Process Local Shared}
    (hbefore : (world.locals process, world.shared) = before) :
    Alone step process world ⟨Function.update world.locals process after.1, after.2⟩ := by
  induction hsteps with
  | refl =>
    subst hbefore
    rw [Function.update_eq_self]
    exact .refl
  | @tail middle last _ hlast ih =>
    refine ih.tail ?_
    have hturn := @Step.step _ _ _ _ step process
      ⟨Function.update world.locals process middle.1, middle.2⟩ last.1 last.2 (by simpa using hlast)
    simpa using hturn

end Interleaving
