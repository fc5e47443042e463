import Mathlib.Logic.Basic

/-! Programs that ask a service and go on with its answers: their runs, the log of what they asked,
and what holds at the end of a run whatever the answers are. -/
namespace Asking

inductive Program (Q : Type) (Answer : Q → Type) (A : Type) where
  | done (value : A)
  | ask (query : Q) (next : Answer query → Program Q Answer A)

abbrev Log (Q : Type) (Answer : Q → Type) := List ((query : Q) × Answer query)

abbrev Service (S Q : Type) (Answer : Q → Type) := S → (query : Q) → Answer query × S

structure Ran (Q : Type) (Answer : Q → Type) (S A : Type) where
  value : A
  log : Log Q Answer
  state : S

variable {Q : Type} {Answer : Q → Type} {A B S T : Type}

namespace Program

def bind : Program Q Answer A → (A → Program Q Answer B) → Program Q Answer B
  | .done value, next => next value
  | .ask query rest, next => .ask query fun answer => (rest answer).bind next

instance : Monad (Program Q Answer) where
  pure := .done
  bind := bind

@[simp] theorem pure_eq (value : A) : (pure value : Program Q Answer A) = .done value := rfl

@[simp] theorem done_bind (value : A) (next : A → Program Q Answer B) :
    (.done value : Program Q Answer A) >>= next = next value := rfl

@[simp] theorem ask_bind (query : Q) (rest : Answer query → Program Q Answer A)
    (next : A → Program Q Answer B) :
    .ask query rest >>= next = .ask query fun answer => rest answer >>= next := rfl

def run (service : Service S Q Answer) : Program Q Answer A → S → Ran Q Answer S A
  | .done value, state => ⟨value, [], state⟩
  | .ask query next, state =>
    let ran := (next (service state query).1).run service (service state query).2
    ⟨ran.value, ⟨query, (service state query).1⟩ :: ran.log, ran.state⟩

@[simp] theorem run_done (service : Service S Q Answer) (value : A) (state : S) :
    (Program.done value).run service state = ⟨value, [], state⟩ := rfl

@[simp] theorem run_ask (service : Service S Q Answer) (query : Q)
    (next : Answer query → Program Q Answer A) (state : S) :
    (Program.ask query next).run service state =
      ⟨((next (service state query).1).run service (service state query).2).value,
        ⟨query, (service state query).1⟩ ::
          ((next (service state query).1).run service (service state query).2).log,
        ((next (service state query).1).run service (service state query).2).state⟩ := rfl

/-- A run depends on what it asks: another service that answers that alike runs alike. -/
theorem run_congr {service service' : Service S Q Answer} {program : Program Q Answer A} {state : S}
    (h : ∀ event ∈ (program.run service state).log, ∀ state,
      service' state event.1 = service state event.1) :
    program.run service' state = program.run service state := by
  induction program generalizing state with
  | done value => rfl
  | ask query next ih =>
    have hhere : service' state query = service state query := h _ List.mem_cons_self state
    have hrest := ih (service state query).1 fun event hin => h event (List.mem_cons_of_mem _ hin)
    rw [run_ask, run_ask, hhere, hrest]

/-! ### What holds at the end -/

/-- `P` holds of the whole log and the value at the end, where after each log the answers are among
those that `may` allows. -/
def Ensures (may : Log Q Answer → (query : Q) → Answer query → Prop) :
    Log Q Answer → Program Q Answer A → (Log Q Answer → A → Prop) → Prop
  | log, .done value, P => P log value
  | log, .ask query next, P =>
    ∀ answer, may log query answer → Ensures may (log ++ [⟨query, answer⟩]) (next answer) P

variable {may : Log Q Answer → (query : Q) → Answer query → Prop} {log : Log Q Answer}

theorem Ensures.mono {program : Program Q Answer A} {P P' : Log Q Answer → A → Prop}
    (h : Ensures may log program P) (hle : ∀ log value, P log value → P' log value) :
    Ensures may log program P' := by
  induction program generalizing log with
  | done value => exact hle _ _ h
  | ask query next ih => exact fun answer hanswer => ih answer (h answer hanswer)

theorem Ensures.bind {program : Program Q Answer A} {next : A → Program Q Answer B}
    {P : Log Q Answer → B → Prop}
    (h : Ensures may log program fun log value => Ensures may log (next value) P) :
    Ensures may log (program >>= next) P := by
  induction program generalizing log with
  | done value => exact h
  | ask query rest ih => exact fun answer hanswer => ih answer (h answer hanswer)

def Allowed (may : Log Q Answer → (query : Q) → Answer query → Prop) :
    Log Q Answer → Log Q Answer → Prop
  | _, [] => True
  | log, ⟨query, answer⟩ :: rest =>
    may log query answer ∧ Allowed may (log ++ [⟨query, answer⟩]) rest

theorem Allowed.event {before rest : Log Q Answer} {query : Q} {answer : Answer query}
    (h : Allowed may log (before ++ ⟨query, answer⟩ :: rest)) : may
    (log ++ before) query answer := by
  induction before generalizing log with
  | nil =>
    rw [List.append_nil]
    exact h.1
  | cons event before ih =>
    have hrest := ih h.2
    rwa [List.append_assoc] at hrest

/-- A service whose answers are allowed as long as `I` holds, which it keeps, ends where the
program ensures. -/
theorem Ensures.run {service : Service S Q Answer} (I : Log Q Answer → S → Prop)
    (hservice : ∀ log state query, I log state → may log query (service state query).1 ∧
      I (log ++ [⟨query, (service state query).1⟩]) (service state query).2)
    {program : Program Q Answer A} {P : Log Q Answer → A → Prop}
    (h : Ensures may log program P) {state : S} (hI : I log state) :
    P (log ++ (program.run service state).log) (program.run service state).value ∧
      Allowed may log (program.run service state).log ∧
      I (log ++ (program.run service state).log) (program.run service state).state := by
  induction program generalizing log state with
  | done value =>
    rw [run_done, List.append_nil]
    exact ⟨h, trivial, hI⟩
  | ask query next ih =>
    obtain ⟨hmay, hkept⟩ := hservice log state query hI
    obtain ⟨hP, hallowed, hend⟩ := ih _ (h _ hmay) hkept
    rw [List.append_assoc] at hP hend
    exact ⟨hP, ⟨hmay, hallowed⟩, hend⟩

/-- What is ensured whatever the answers are holds of every run. -/
theorem Ensures.of_run {program : Program Q Answer A} {P : Log Q Answer → A → Prop}
    (h : Ensures (fun _ _ _ => True) [] program P) (service : Service S Q Answer) (state : S) :
    P (program.run service state).log (program.run service state).value :=
  (h.run (fun _ _ => True) (fun _ _ _ _ => ⟨trivial, trivial⟩) trivial).1

end Program

end Asking
