import BeanKey.Lattice.Typo
import BeanKey.Library.Keyed

/-! Edit scripts over a beginning of the input, and that the enumeration finds the readings of all
of them with their least penalties. -/
namespace BeanKey.Lattice
open Input Relation

/-- A script so far: what it consumed and put in its place, at what penalty, and whether anything
was replaced. -/
structure TypoState where
  consumed : Nat
  penalty : ℚ
  changed : Bool
  elements : List InputElement

namespace TypoState

def start : TypoState := ⟨0, 0, false, []⟩

def copied (state : TypoState) (element : InputElement) : TypoState :=
  { state with
    consumed := state.consumed + 1
    elements := state.elements ++ [element] }

def replaced (state : TypoState) (rule : Text × ℚ) : TypoState :=
  { consumed := state.consumed + 1
    penalty := state.penalty + rule.2
    changed := true
    elements := state.elements ++ [.character rule.1 .direct] }

def respelled (state : TypoState) (replacement : Text) : TypoState :=
  { consumed := state.consumed + 2
    penalty := state.penalty + 7 / 2
    changed := true
    elements := state.elements ++ replacement.map fun character =>
      .character [character] .romanToKana }

end TypoState

section
variable (unicode : UnicodeTable) (tables : InputTableRegistry) (maximumLength : Nat)
  (input : List InputElement)

def TypoState.ruby (state : TypoState) : Text := toKatakana (render tables state.elements)

def TypoState.rubyCount (state : TypoState) : Nat :=
  (graphemes unicode (state.ruby tables)).length

/-- Scripts go on while they consume less than the maximum length, and a changed one only while it
renders to less. -/
def TypoState.Open (state : TypoState) : Prop :=
  state.consumed < maximumLength ∧
    (state.changed = true → state.rubyCount unicode tables < maximumLength)

def TypoState.romanRule (state : TypoState) (element : InputElement) : Option Text := do
  let second ← input[state.consumed + 1]?
  romanReplacement element second

inductive TypoStep (state : TypoState) : TypoState → Prop
  | copy {element : InputElement} (hopen : state.Open unicode tables maximumLength)
      (helement : input[state.consumed]? = some element) : TypoStep state (state.copied element)
  | direct {element : InputElement} {rule : Text × ℚ}
      (hopen : state.Open unicode tables maximumLength)
      (helement : input[state.consumed]? = some element)
      (hbelow : state.penalty < maximumPenalty) (hrule : rule ∈ directReplacements element) :
      TypoStep state (state.replaced rule)
  | roman {first second : InputElement} {replacement : Text}
      (hopen : state.Open unicode tables maximumLength)
      (hfirst : input[state.consumed]? = some first)
      (hsecond : input[state.consumed + 1]? = some second)
      (hbelow : state.penalty < maximumPenalty)
      (hrule : romanReplacement first second = some replacement) :
      TypoStep state (state.respelled replacement)

/-- The script's reading counts: something was replaced, it fits, and the next element does not
change it. -/
def TypoState.Readable (state : TypoState) : Prop :=
  state.changed = true ∧ state.rubyCount unicode tables ≤ maximumLength ∧
    isStablePrefix tables (input.drop state.consumed) state.elements = true

/-- A script over the first `consumed` elements renders to the reading at the penalty. -/
def Scripted (ruby : Text) (consumed : Nat) (penalty : ℚ) : Prop :=
  ∃ state, ReflTransGen (TypoStep unicode tables maximumLength input) .start state ∧
    state.Readable unicode tables maximumLength input ∧
    state.ruby tables = ruby ∧ state.consumed = consumed ∧ state.penalty = penalty

def TypoState.Records (state : TypoState) (entry : (Text × Nat) × ℚ) : Prop :=
  state.Readable unicode tables maximumLength input ∧
    entry = ((state.ruby tables, state.consumed), state.penalty)

/-- The run inserts what the scripts that go on from the states record, and nothing else. -/
def Inserts (states : TypoState → Prop) (run : TypoPenalties → TypoPenalties) : Prop :=
  ∃ entries : List ((Text × Nat) × ℚ),
    (∀ output, run output =
      entries.foldl (fun output entry => output.insert entry.1 entry.2) output) ∧
    ∀ entry, entry ∈ entries ↔ ∃ state, states state ∧
      ∃ last, ReflTransGen (TypoStep unicode tables maximumLength input) state last ∧
        last.Records unicode tables maximumLength input entry

end

section
variable {unicode : UnicodeTable} {tables : InputTableRegistry} {maximumLength : Nat}
  {input : List InputElement} {state : TypoState}

theorem insert_eq_insertLeast (output : TypoPenalties) (key : Text × Nat) (penalty : ℚ) :
    output.insert key penalty = Keyed.insertLeast output key penalty := by
  unfold TypoPenalties.insert Keyed.insertLeast
  by_cases hkey : key ∈ output.map Prod.fst
  · rw [if_pos hkey, if_pos hkey]
  · rw [if_neg hkey, if_neg hkey]

theorem TypoStep.isOpen {next : TypoState}
    (h : TypoStep unicode tables maximumLength input state next) :
    state.Open unicode tables maximumLength ∧ ∃ element, input[state.consumed]? = some element := by
  cases h with
  | copy hopen helement => exact ⟨hopen, _, helement⟩
  | direct hopen helement => exact ⟨hopen, _, helement⟩
  | roman hopen hfirst => exact ⟨hopen, _, hfirst⟩

theorem typoStep_iff (hopen : state.Open unicode tables maximumLength) {element : InputElement}
    (helement : input[state.consumed]? = some element) (next : TypoState) :
    TypoStep unicode tables maximumLength input state next ↔
      next = state.copied element ∨
        (state.penalty < maximumPenalty ∧
          ((∃ rule ∈ directReplacements element, next = state.replaced rule) ∨
            ∃ replacement, state.romanRule input element = some replacement ∧
              next = state.respelled replacement)) := by
  have hsame : ∀ {other}, input[state.consumed]? = some other → element = other := fun hother =>
    Option.some.inj (helement.symm.trans hother)
  constructor
  · intro h
    cases h with
    | copy _ hother => exact .inl (by rw [hsame hother])
    | direct _ hother hbelow hrule => exact .inr ⟨hbelow, .inl ⟨_, by rwa [hsame hother], rfl⟩⟩
    | roman _ hother hsecond hbelow hrule =>
      exact .inr ⟨hbelow, .inr ⟨_, Option.bind_eq_some_iff.mpr
        ⟨_, hsecond, by rwa [hsame hother]⟩, rfl⟩⟩
  · rintro (rfl | ⟨hbelow, ⟨rule, hrule, rfl⟩ | ⟨replacement, hrule, rfl⟩⟩)
    · exact .copy hopen helement
    · exact .direct hopen helement hbelow hrule
    · obtain ⟨second, hsecond, hrule⟩ := Option.bind_eq_some_iff.mp hrule
      exact .roman hopen helement hsecond hbelow hrule

/-! ### Runs that insert -/

theorem Inserts.congr {states others : TypoState → Prop} {run run' : TypoPenalties → TypoPenalties}
    (h : Inserts unicode tables maximumLength input states run)
    (hstates : ∀ state, states state ↔ others state) (hrun : ∀ output, run output = run' output) :
    Inserts unicode tables maximumLength input others run' := by
  obtain rfl : states = others := funext fun state => propext (hstates state)
  obtain rfl : run = run' := funext hrun
  exact h

theorem inserts_none : Inserts unicode tables maximumLength input (fun _ => False) id :=
  ⟨[], fun _ => rfl, fun entry => by simp⟩

theorem Inserts.comp {states others : TypoState → Prop}
    {first second : TypoPenalties → TypoPenalties}
    (hfirst : Inserts unicode tables maximumLength input states first)
    (hsecond : Inserts unicode tables maximumLength input others second) :
    Inserts unicode tables maximumLength input (fun state => states state ∨ others state)
      fun output => second (first output) := by
  obtain ⟨entries, hrun, hentries⟩ := hfirst
  obtain ⟨further, hrun', hfurther⟩ := hsecond
  refine ⟨entries ++ further, fun output => ?_, fun entry => ?_⟩
  · rw [List.foldl_append, ← hrun, ← hrun']
  · rw [List.mem_append, hentries, hfurther]
    constructor
    · rintro (⟨state, hstate, hlast⟩ | ⟨state, hstate, hlast⟩)
      · exact ⟨state, .inl hstate, hlast⟩
      · exact ⟨state, .inr hstate, hlast⟩
    · rintro ⟨state, hstate | hstate, hlast⟩
      · exact .inl ⟨state, hstate, hlast⟩
      · exact .inr ⟨state, hstate, hlast⟩

theorem inserts_foldl {ρ : Type} (rules : List ρ) (next : ρ → TypoState)
    (run : ρ → TypoPenalties → TypoPenalties)
    (h : ∀ rule ∈ rules,
      Inserts unicode tables maximumLength input (fun state => state = next rule) (run rule)) :
    Inserts unicode tables maximumLength input (fun state => ∃ rule ∈ rules, state = next rule)
      fun output => rules.foldl (fun output rule => run rule output) output := by
  induction rules with
  | nil => exact inserts_none.congr (by simp) fun _ => rfl
  | cons rule rules ih =>
    have hrest := ih fun other hin => h other (List.mem_cons_of_mem _ hin)
    exact ((h rule List.mem_cons_self).comp hrest).congr (by simp) fun _ => rfl

/-- A state's own record, if it makes one, and then the runs of its next states. -/
theorem Inserts.cons {own run : TypoPenalties → TypoPenalties}
    (hown : state.Readable unicode tables maximumLength input →
      ∀ output, own output = output.insert (state.ruby tables, state.consumed) state.penalty)
    (hnone : ¬ state.Readable unicode tables maximumLength input → ∀ output, own output = output)
    (h : Inserts unicode tables maximumLength input
      (TypoStep unicode tables maximumLength input state) run) :
    Inserts unicode tables maximumLength input (fun other => other = state)
      fun output => run (own output) := by
  obtain ⟨entries, hrun, hentries⟩ := h
  have hhead : ∀ entry, (∃ last,
      ReflTransGen (TypoStep unicode tables maximumLength input) state last ∧
        last.Records unicode tables maximumLength input entry) ↔
      state.Records unicode tables maximumLength input entry ∨ entry ∈ entries := by
    intro entry
    rw [hentries]
    constructor
    · rintro ⟨last, hreach, hrecords⟩
      obtain rfl | ⟨next, hstep, hrest⟩ := hreach.cases_head
      · exact .inl hrecords
      · exact .inr ⟨next, hstep, last, hrest, hrecords⟩
    · rintro (hrecords | ⟨next, hstep, last, hrest, hrecords⟩)
      · exact ⟨state, .refl, hrecords⟩
      · exact ⟨last, .head hstep hrest, hrecords⟩
  by_cases hreadable : state.Readable unicode tables maximumLength input
  · refine ⟨((state.ruby tables, state.consumed), state.penalty) :: entries, fun output => ?_,
      fun entry => ?_⟩
    · dsimp only
      rw [List.foldl_cons, ← hrun, hown hreadable]
    · simp only [List.mem_cons, exists_eq_left, hhead]
      simp [TypoState.Records, hreadable]
  · refine ⟨entries, fun output => ?_, fun entry => ?_⟩
    · dsimp only
      rw [← hrun, hnone hreadable]
    · simp only [exists_eq_left, hhead]
      simp [TypoState.Records, hreadable]

theorem Inserts.last {own : TypoPenalties → TypoPenalties}
    (hown : state.Readable unicode tables maximumLength input →
      ∀ output, own output = output.insert (state.ruby tables, state.consumed) state.penalty)
    (hnone : ¬ state.Readable unicode tables maximumLength input → ∀ output, own output = output)
    (hend : ∀ next, ¬ TypoStep unicode tables maximumLength input state next) :
    Inserts unicode tables maximumLength input (fun other => other = state) own :=
  (Inserts.cons hown hnone (inserts_none.congr (fun next => by simp [hend next])
    fun _ => rfl)).congr (fun _ => Iff.rfl) fun _ => rfl

/-! ### The enumeration -/

section
variable (unicode tables maximumLength input) (state)

abbrev enumerateAt : TypoPenalties → TypoPenalties :=
  enumerate unicode tables maximumLength (input.drop state.consumed) state.consumed state.penalty
    state.changed state.elements

def recordAt (output : TypoPenalties) : TypoPenalties :=
  if decide (0 < state.consumed) && state.changed &&
      decide ((graphemes unicode (toKatakana (render tables state.elements))).length ≤
        maximumLength) &&
      isStablePrefix tables (input.drop state.consumed) state.elements then
    output.insert (toKatakana (render tables state.elements), state.consumed) state.penalty
  else output

end

theorem recordAt_eq_if (hchanged : state.changed = true → 0 < state.consumed)
    [Decidable (state.Readable unicode tables maximumLength input)] (output : TypoPenalties) :
    recordAt unicode tables maximumLength input state output =
      if state.Readable unicode tables maximumLength input then
        output.insert (state.ruby tables, state.consumed) state.penalty
      else output := by
  unfold recordAt
  apply if_congr ?_ rfl rfl
  simp only [Bool.and_eq_true, decide_eq_true_eq, TypoState.Readable, TypoState.rubyCount,
    TypoState.ruby, and_assoc]
  exact ⟨fun h => h.2, fun h => ⟨hchanged h.1, h⟩⟩

theorem enumerateAt_closed (hchanged : state.changed = true → 0 < state.consumed)
    (hclosed : ¬ state.Open unicode tables maximumLength) (output : TypoPenalties) :
    enumerateAt unicode tables maximumLength input state output =
      recordAt unicode tables maximumLength input state output := by
  rw [enumerateAt, enumerate.eq_def]
  simp only
  rw [← recordAt]
  by_cases hshort : state.consumed < maximumLength
  · have hlong : state.changed = true ∧
        maximumLength ≤ (graphemes unicode (toKatakana (render tables state.elements))).length := by
      by_contra hnot
      refine hclosed ⟨hshort, fun h => Nat.not_le.mp fun hle => hnot ⟨h, hle⟩⟩
    rw [if_pos (by simp [hlong.1, hlong.2, hchanged hlong.1])]
  · rw [if_pos (Nat.not_lt.mp hshort), ite_self]

theorem enumerateAt_end (hend : input[state.consumed]? = none) (output : TypoPenalties) :
    enumerateAt unicode tables maximumLength input state output =
      recordAt unicode tables maximumLength input state output := by
  have hdrop : input.drop state.consumed = [] :=
    List.drop_eq_nil_of_le (List.getElem?_eq_none_iff.mp hend)
  rw [enumerateAt, recordAt, hdrop, enumerate.eq_def]
  simp only [ite_self]

theorem enumerateAt_roman (element : InputElement) (output : TypoPenalties) :
    (match input.drop (state.consumed + 1) with
      | [] => output
      | next :: rest =>
        match romanReplacement element next with
        | some replacement =>
          enumerate unicode tables maximumLength rest (state.consumed + 2)
            (state.penalty + 7 / 2) true
            (state.elements ++ replacement.map fun character =>
              .character [character] .romanToKana) output
        | none => output) =
      match state.romanRule input element with
      | some replacement =>
        enumerateAt unicode tables maximumLength input (state.respelled replacement) output
      | none => output := by
  rw [TypoState.romanRule]
  cases hsecond : input[state.consumed + 1]? with
  | none =>
    rw [List.drop_eq_nil_of_le (List.getElem?_eq_none_iff.mp hsecond)]
    rfl
  | some second =>
    obtain ⟨hlt, rfl⟩ := List.getElem?_eq_some_iff.mp hsecond
    rw [List.drop_eq_getElem_cons hlt]
    simp only [Option.bind_eq_bind, Option.bind_some]
    cases romanReplacement element input[state.consumed + 1] <;> rfl

theorem enumerateAt_open (hopen : state.Open unicode tables maximumLength) {element : InputElement}
    (helement : input[state.consumed]? = some element) (output : TypoPenalties) :
    enumerateAt unicode tables maximumLength input state output =
      let output := enumerateAt unicode tables maximumLength input (state.copied element)
        (recordAt unicode tables maximumLength input state output)
      if maximumPenalty ≤ state.penalty then output
      else
        let output := (directReplacements element).foldl (fun output rule =>
          enumerateAt unicode tables maximumLength input (state.replaced rule) output) output
        match state.romanRule input element with
        | some replacement =>
          enumerateAt unicode tables maximumLength input (state.respelled replacement) output
        | none => output := by
  have hdrop : input.drop state.consumed = element :: input.drop (state.consumed + 1) := by
    obtain ⟨hlt, rfl⟩ := List.getElem?_eq_some_iff.mp helement
    exact List.drop_eq_getElem_cons hlt
  have hshort : ¬ (decide (0 < state.consumed) && state.changed && decide (maximumLength ≤
      (graphemes unicode (toKatakana (render tables state.elements))).length)) = true := by
    simp only [Bool.and_eq_true, decide_eq_true_eq]
    rintro ⟨⟨-, h⟩, hle⟩
    exact absurd (hopen.2 h) (Nat.not_lt.mpr hle)
  rw [enumerateAt, enumerate.eq_def]
  simp only
  rw [← recordAt, if_neg hshort, if_neg (Nat.not_le.mpr hopen.1), hdrop]
  simp only
  by_cases hbelow : maximumPenalty ≤ state.penalty
  · rw [if_pos hbelow, if_pos hbelow]
    rfl
  · rw [if_neg hbelow, if_neg hbelow]
    exact enumerateAt_roman element _

/-- The enumeration inserts what every script records that goes on from the state. -/
theorem enumerate_inserts (hchanged : state.changed = true → 0 < state.consumed) :
    Inserts unicode tables maximumLength input (fun other => other = state)
      (enumerateAt unicode tables maximumLength input state) := by
  classical
  have hown : ∀ {state : TypoState}, (state.changed = true → 0 < state.consumed) →
      state.Readable unicode tables maximumLength input → ∀ output,
        recordAt unicode tables maximumLength input state output =
          output.insert (state.ruby tables, state.consumed) state.penalty :=
    fun hchanged h output => by rw [recordAt_eq_if hchanged, if_pos h]
  have hnone : ∀ {state : TypoState}, (state.changed = true → 0 < state.consumed) →
      ¬ state.Readable unicode tables maximumLength input → ∀ output,
        recordAt unicode tables maximumLength input state output = output :=
    fun hchanged h output => by rw [recordAt_eq_if hchanged, if_neg h]
  induction hleft : input.length - state.consumed using Nat.strong_induction_on
    generalizing state with
  | _ left ih =>
    subst hleft
    by_cases hopen : state.Open unicode tables maximumLength
    · cases helement : input[state.consumed]? with
      | none =>
        have hend : ∀ next, ¬ TypoStep unicode tables maximumLength input state next := by
          intro next h
          obtain ⟨-, element, hsome⟩ := h.isOpen
          rw [helement] at hsome
          cases hsome
        exact (Inserts.last (hown hchanged) (hnone hchanged) hend).congr (fun _ => Iff.rfl)
          fun output => (enumerateAt_end helement output).symm
      | some element =>
        have hlt : state.consumed < input.length := (List.getElem?_eq_some_iff.mp helement).1
        have hcopied := ih (input.length - (state.copied element).consumed)
          (by simp only [TypoState.copied]; omega) (fun _ => Nat.succ_pos _) rfl
        have hreplaced := inserts_foldl (directReplacements element) state.replaced
          (fun rule => enumerateAt unicode tables maximumLength input (state.replaced rule))
          fun rule _ => ih (input.length - (state.replaced rule).consumed)
            (by simp only [TypoState.replaced]; omega) (fun _ => Nat.succ_pos _) rfl
        have hcons : ∀ {run : TypoPenalties → TypoPenalties},
            Inserts unicode tables maximumLength input
              (TypoStep unicode tables maximumLength input state) run →
            Inserts unicode tables maximumLength input (fun other => other = state)
              fun output => run (recordAt unicode tables maximumLength input state output) :=
          Inserts.cons (hown hchanged) (hnone hchanged)
        have hstep := typoStep_iff hopen helement
        by_cases hbelow : maximumPenalty ≤ state.penalty
        · refine (hcons (hcopied.congr (fun next => ?_) fun _ => rfl)).congr (fun _ => Iff.rfl)
            fun output => ?_
          · simp [hstep, not_lt.mpr hbelow]
          · rw [enumerateAt_open hopen helement]
            simp only [if_pos hbelow]
        · have hboth := hcopied.comp hreplaced
          cases hrule : state.romanRule input element with
          | none =>
            refine (hcons (hboth.congr (fun next => ?_) fun _ => rfl)).congr (fun _ => Iff.rfl)
              fun output => ?_
            · simp [hstep, not_le.mp hbelow, hrule]
            · rw [enumerateAt_open hopen helement]
              simp only [if_neg hbelow, hrule]
          | some replacement =>
            have hrespelled := ih (input.length - (state.respelled replacement).consumed)
              (by simp only [TypoState.respelled]; omega) (fun _ => Nat.succ_pos _) rfl
            refine (hcons ((hboth.comp hrespelled).congr (fun next => ?_) fun _ => rfl)).congr
              (fun _ => Iff.rfl) fun output => ?_
            · simp [hstep, not_le.mp hbelow, hrule, or_assoc]
            · rw [enumerateAt_open hopen helement]
              simp only [if_neg hbelow, hrule]
    · exact (Inserts.last (hown hchanged) (hnone hchanged) fun next h => hopen h.isOpen.1).congr
        (fun _ => Iff.rfl) fun output => (enumerateAt_closed hchanged hopen output).symm

theorem consumed_le_of_reach
    (h : ReflTransGen (TypoStep unicode tables maximumLength input) .start state) :
    state.consumed ≤ input.length := by
  induction h with
  | refl => exact Nat.zero_le _
  | tail _ hstep _ =>
    cases hstep with
    | copy _ helement => exact (List.getElem?_eq_some_iff.mp helement).1
    | direct _ helement => exact (List.getElem?_eq_some_iff.mp helement).1
    | roman _ _ hsecond => exact (List.getElem?_eq_some_iff.mp hsecond).1

end

/-- The enumeration finds the readings of the scripts, each once and at the least penalty of the
scripts that render to it. -/
theorem typoPrefixes_iff (unicode : UnicodeTable) (order : HashOrder) (input : List InputElement)
    (tables : InputTableRegistry) (maximumLength : Nat) :
    (∀ ruby consumed penalty,
      { ruby, consumed, penalty : TypoPrefix } ∈
          typoPrefixes unicode order input tables maximumLength ↔
        IsLeast {penalty | Scripted unicode tables maximumLength input ruby consumed penalty}
          penalty) ∧
    ((typoPrefixes unicode order input tables maximumLength).map fun found =>
      (found.ruby, found.consumed)).Nodup ∧
    ∀ found ∈ typoPrefixes unicode order input tables maximumLength,
      found.consumed ≤ input.length := by
  have hinserts : Inserts unicode tables maximumLength input (fun other => other = .start)
      (enumerateAt unicode tables maximumLength input .start) := enumerate_inserts nofun
  obtain ⟨entries, hrun, hentries⟩ := hinserts
  have hscripted : ∀ ruby consumed penalty, ((ruby, consumed), penalty) ∈ entries ↔
      Scripted unicode tables maximumLength input ruby consumed penalty := by
    intro ruby consumed penalty
    rw [hentries]
    simp only [exists_eq_left, TypoState.Records, Scripted, Prod.mk.injEq, and_assoc, eq_comm]
  have hfound : enumerate unicode tables maximumLength input 0 0 false [] [] =
      entries.foldl (fun output entry => Keyed.insertLeast output entry.1 entry.2) [] := by
    simp only [← insert_eq_insertLeast]
    exact hrun []
  have htracks := Keyed.tracks_nil.foldl entries
  rw [← hfound] at htracks
  have hmem : ∀ ruby consumed penalty,
      { ruby, consumed, penalty : TypoPrefix } ∈
          typoPrefixes unicode order input tables maximumLength ↔
        IsLeast {penalty | Scripted unicode tables maximumLength input ruby consumed penalty}
          penalty := by
    intro ruby consumed penalty
    have hleast : ((ruby, consumed), penalty) ∈ _ ↔ _ := htracks.mem_iff
    simp only [false_or, hscripted] at hleast
    rw [← hleast, typoPrefixes, List.mem_map]
    constructor
    · rintro ⟨⟨⟨found, count⟩, least⟩, hin, heq⟩
      cases heq
      exact (order.perm _ _).mem_iff.mp hin
    · exact fun hin => ⟨_, (order.perm _ _).mem_iff.mpr hin, rfl⟩
  refine ⟨hmem, ?_, ?_⟩
  · rw [typoPrefixes, List.map_map]
    change ((order.arrange input.length _).map Prod.fst).Nodup
    rw [((order.perm input.length _).map Prod.fst).nodup_iff]
    exact htracks.nodup
  · rintro ⟨ruby, consumed, penalty⟩ hin
    obtain ⟨state, hreach, -, -, rfl, -⟩ := ((hmem ruby consumed penalty).mp hin).1
    exact consumed_le_of_reach hreach

end BeanKey.Lattice
