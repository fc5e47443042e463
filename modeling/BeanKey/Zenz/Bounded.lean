import BeanKey.Zenz.Reported

/-! How much a conversion asks, and what it leaves: the loops end within the inferences they are
given, and the cache keeps no candidate as evaluated that has not passed. -/
namespace BeanKey.Zenz
open BeanKey.Lattice hiding Candidate
open Packing Asking
open Session (Candidate ConversionSession)

section
variable {F : Type}

def Question.isEvaluation : Question F → Bool
  | .draft _ _ => false
  | .evaluate _ => true

def evaluationCount (log : Log (Question F) Question.Answer) : Nat :=
  log.countP fun event => event.1.isEvaluation

def draftCount (log : Log (Question F) Question.Answer) : Nat :=
  log.countP fun event => !event.1.isEvaluation

/-- The loops ask for no more evaluations than the limit, and for one draft more than evaluations;
only drafts of rich candidates come behind, at most one for each alternative of the last pass. -/
def Bounded (limit : Nat) (log : Log (Question F) Question.Answer) : Prop :=
  ∃ main rich, log = main ++ rich ∧ evaluationCount main ≤ limit ∧
    draftCount main ≤ evaluationCount main + 1 ∧ (∀ event ∈ rich, event.1.IsDraft) ∧
    (rich = [] ∨ ∃ before request score alternatives,
      main = before ++ [⟨.evaluate request, .ok (.pass score alternatives)⟩] ∧
        rich.length ≤ alternatives.length)

/-- What is reported comes first among the session's candidates and is what the cache keeps as
evaluated; else the cache keeps what it had as evaluated, or nothing. -/
structure Leaves (input : ConversionInput F) (converted : Converted) : Prop where
  reported : ∀ candidate, converted.reviewed = .ok (some candidate) →
    converted.candidates.head? = some candidate ∧
      converted.cache.evaluatedSatisfyingCandidate = some candidate
  otherwise : (∀ candidate, converted.reviewed ≠ .ok (some candidate)) →
    converted.cache.evaluatedSatisfyingCandidate = none ∨
      converted.cache.evaluatedSatisfyingCandidate = input.cache.evaluatedSatisfyingCandidate

structure Ended (input : ConversionInput F) (limit : Nat) (log : Log (Question F) Question.Answer)
    (value : Option Converted) : Prop where
  bounded : Bounded limit log
  leaves : ∀ converted, value = some converted → Leaves input converted

section
variable {input : ConversionInput F} {limit : Nat} {arithmetic : Arithmetic F} {quarter half : F}
  {may : Log (Question F) Question.Answer → (question : Question F) → question.Answer → Prop}
  {log : Log (Question F) Question.Answer}

@[simp] theorem evaluationCount_concat (event : (question : Question F) × question.Answer) :
    evaluationCount (log ++ [event]) =
      evaluationCount log + if event.1.isEvaluation then 1 else 0 := by
  simp [evaluationCount, List.countP_append, List.countP_singleton]

@[simp] theorem draftCount_concat (event : (question : Question F) × question.Answer) :
    draftCount (log ++ [event]) = draftCount log + if event.1.isEvaluation then 0 else 1 := by
  cases h : event.1.isEvaluation <;> simp [draftCount, List.countP_append, h]

theorem bounded_of_counts (hevaluations : evaluationCount log ≤ limit)
    (hdrafts : draftCount log ≤ evaluationCount log + 1) : Bounded limit log :=
  ⟨log, [], by simp, hevaluations, hdrafts, by simp, .inl rfl⟩

/-- Where nothing is reported, the cache keeps nothing new as evaluated. -/
theorem leaves_unreported {converted : Converted}
    (hreviewed : ∀ candidate, converted.reviewed ≠ .ok (some candidate))
    (hcache : converted.cache.evaluatedSatisfyingCandidate = none ∨
      converted.cache.evaluatedSatisfyingCandidate = input.cache.evaluatedSatisfyingCandidate) :
    Leaves input converted :=
  ⟨fun candidate h => absurd h (hreviewed candidate), fun _ => hcache⟩

theorem ended_of_counts {value : Option Converted} (hevaluations : evaluationCount log ≤ limit)
    (hdrafts : draftCount log ≤ evaluationCount log + 1)
    (hleaves : ∀ converted, value = some converted → Leaves input converted) :
    Ended input limit log value :=
  ⟨bounded_of_counts hevaluations hdrafts, hleaves⟩

/-- At most one draft for each alternative, and the first candidate stays the first. -/
theorem insertRichCandidates_bounded (constructed : List Candidate)
    (alternatives : List (AlternativeConstraint F)) (first : Candidate)
    (inserted : List Candidate) :
    Program.Ensures may log
      (insertRichCandidates arithmetic quarter half constructed alternatives (first :: inserted))
      fun whole result => ∃ after, whole = log ++ after ∧ (∀ event ∈ after, event.1.IsDraft) ∧
        after.length ≤ alternatives.length ∧
        ∀ candidates, result = some candidates → candidates.head? = some first := by
  induction alternatives generalizing inserted log with
  | nil =>
    refine ⟨[], by simp, by simp, by simp, fun candidates hresult => ?_⟩
    cases hresult
    rfl
  | cons alternative rest ih =>
    have hskip : ∀ inserted, Program.Ensures may log
        (insertRichCandidates arithmetic quarter half constructed rest (first :: inserted))
        fun whole result => ∃ after, whole = log ++ after ∧ (∀ event ∈ after, event.1.IsDraft) ∧
          after.length ≤ (alternative :: rest).length ∧
          ∀ candidates, result = some candidates → candidates.head? = some first := by
      intro inserted
      apply (ih inserted).mono
      rintro whole result ⟨after, hwhole, hdrafts, hlength, hhead⟩
      exact ⟨after, hwhole, hdrafts, Nat.le_succ_of_le hlength, hhead⟩
    rw [insertRichCandidates]
    split
    · dsimp only
      split
      · exact hskip _
      · split
        · intro draft _
          have hdrafted : ∀ inserted, Program.Ensures may (log ++ [⟨.draft 3 _, draft⟩])
              (insertRichCandidates arithmetic quarter half constructed rest (first :: inserted))
              fun whole result => ∃ after, whole = log ++ after ∧
                (∀ event ∈ after, event.1.IsDraft) ∧ after.length ≤ (alternative :: rest).length ∧
                ∀ candidates, result = some candidates → candidates.head? = some first := by
            intro inserted
            apply (ih inserted).mono
            rintro whole result ⟨after, rfl, hdrafts, hlength, hhead⟩
            refine ⟨⟨.draft 3 _, draft⟩ :: after, by rw [List.append_assoc]; rfl, ?_, ?_, hhead⟩
            · exact List.forall_mem_cons.mpr ⟨trivial, hdrafts⟩
            · simpa using hlength
          cases draft with
          | none =>
            refine ⟨[⟨.draft 3 _, none⟩], rfl, ?_, by simp, fun candidates h => by cases h⟩
            intro event hin
            rw [List.mem_singleton.mp hin]
            trivial
          | some draft =>
            dsimp only
            split
            · exact hdrafted _
            · exact hdrafted _
        · exact hskip _
    · exact hskip _

theorem searchDraft_bounded {constraint : PrefixConstraint} {constructed inserted : List Candidate}
    {goOn : Review → Asks F Converted} (hevaluations : evaluationCount log ≤ limit)
    (hdrafts : draftCount log ≤ evaluationCount log)
    (hgoOn : ∀ log' review, evaluationCount log' = evaluationCount log →
      draftCount log' ≤ evaluationCount log' + 1 →
        Program.Ensures may log' (goOn review) (Ended input limit)) :
    Program.Ensures may log (searchDraft input constraint constructed inserted goOn)
      (Ended input limit) := by
  intro draft _
  have hsame : evaluationCount (log ++ [⟨.draft _ constraint, draft⟩]) = evaluationCount log := by
    simp [Question.isEvaluation]
  have hone : draftCount (log ++ [⟨.draft _ constraint, draft⟩]) ≤
      evaluationCount (log ++ [⟨.draft _ constraint, draft⟩]) + 1 := by
    rw [hsame]
    simpa [Question.isEvaluation] using hdrafts
  have hle := hevaluations
  rw [← hsame] at hle
  cases draft with
  | none => exact ended_of_counts hle hone fun _ h => by cases h
  | some draft =>
    dsimp only
    cases bestCandidate draft with
    | none =>
      refine ended_of_counts hle hone fun converted hvalue => ?_
      cases hvalue
      exact leaves_unreported (fun _ h => by cases h) (.inl rfl)
    | some best => exact hgoOn _ _ hsame hone

theorem rejected_bounded {next : PrefixConstraint} {review : Review}
    {goOn : Review → Asks F Converted} (hevaluations : evaluationCount log ≤ limit)
    (hdrafts : draftCount log ≤ evaluationCount log)
    (hgoOn : ∀ log' review, evaluationCount log' = evaluationCount log →
      draftCount log' ≤ evaluationCount log' + 1 →
        Program.Ensures may log' (goOn review) (Ended input limit)) :
    Program.Ensures may log (rejected input next review goOn) (Ended input limit) := by
  rw [rejected]
  split
  · refine ended_of_counts hevaluations (by omega) fun converted hvalue => ?_
    cases hvalue
    exact leaves_unreported (fun _ h => by cases h) (.inl rfl)
  · exact hgoOn _ _ rfl (by omega)
  · exact searchDraft_bounded hevaluations hdrafts hgoOn

theorem reviewLoop_bounded (remaining : Nat) (review : Review)
    (hevaluations : evaluationCount log + remaining ≤ limit)
    (hdrafts : draftCount log ≤ evaluationCount log + 1) :
    Program.Ensures may log (reviewLoop arithmetic quarter half input remaining review)
      (Ended input limit) := by
  induction remaining generalizing log review with
  | zero =>
    refine ended_of_counts hevaluations hdrafts fun converted hvalue => ?_
    cases hvalue
    exact leaves_unreported (fun _ h => by cases h) (.inl rfl)
  | succ remaining ih =>
    rw [reviewLoop]
    dsimp only
    split
    · refine ended_of_counts (by omega) hdrafts fun converted hvalue => ?_
      cases hvalue
      refine leaves_unreported (fun _ h => by cases h) ?_
      dsimp only
      split
      · exact .inl rfl
      · exact .inr rfl
    · intro result _
      have hcount : evaluationCount (log ++ [⟨.evaluate (input.request review.constraint
          review.candidate), result⟩]) = evaluationCount log + 1 := by
        simp [Question.isEvaluation]
      have hsame : draftCount (log ++ [⟨.evaluate (input.request review.constraint
          review.candidate), result⟩]) = draftCount log := by
        simp [Question.isEvaluation]
      have hrejected (next : PrefixConstraint) : Program.Ensures may
          (log ++ [⟨.evaluate (input.request review.constraint review.candidate), result⟩])
          (rejected input next { review with inserted := review.candidate :: review.inserted }
            (reviewLoop arithmetic quarter half input remaining)) (Ended input limit) := by
        apply rejected_bounded (by omega) (by omega)
        intro log' review' hcount' hdrafts'
        exact ih review' (by omega) hdrafts'
      cases result with
      | error error =>
        refine ended_of_counts (by omega) (by omega) fun converted hvalue => ?_
        cases hvalue
        exact leaves_unreported (fun _ h => by cases h) (.inr rfl)
      | ok result =>
        cases result with
        | fixRequired bytes => exact hrejected _
        | wholeResult whole => exact hrejected _
        | pass score alternatives =>
          dsimp only
          split
          · apply Program.Ensures.bind
            apply (insertRichCandidates_bounded _ _ _ _).mono
            rintro whole result ⟨after, rfl, hrich, hlength, hhead⟩
            refine ⟨⟨_, after, rfl, by omega, by omega, hrich, .inr ⟨_, _, _, _, rfl, ?_⟩⟩, ?_⟩
            · simpa using hlength
            · intro converted hvalue
              obtain ⟨candidates, hcandidates, rfl⟩ := Option.map_eq_some_iff.mp hvalue
              refine ⟨fun candidate h => ?_, fun h => absurd rfl (h _)⟩
              cases h
              exact ⟨hhead candidates hcandidates, rfl⟩
          · refine ended_of_counts (by omega) (by omega) fun converted hvalue => ?_
            cases hvalue
            refine ⟨fun candidate h => ?_, fun h => absurd rfl (h _)⟩
            cases h
            exact ⟨rfl, rfl⟩

theorem convert_bounded (unicode : UnicodeTable) (tables : Input.InputTableRegistry)
    (session : ConversionSession) (cache : ZenzConversionCache)
    (options : ZenzConversionOptions F) :
    Program.Ensures may [] (convert arithmetic quarter half unicode tables session cache options)
      (Ended (conversionInput tables session cache options) options.inferenceLimit) := by
  apply searchDraft_bounded (Nat.zero_le _) (Nat.zero_le _)
  intro log review hcount hdrafts
  apply reviewLoop_bounded _ _ _ hdrafts
  rw [hcount]
  exact (Nat.zero_add _).le

end

/-! ### Conversions that hand the cache on -/

/-- The caches that conversions of a session reach, with all that was asked. A conversion asks any
service in any state; where it does not end, the cache stays, and it is discarded at any time. -/
inductive CacheReached (arithmetic : Arithmetic F) (quarter half : F) (unicode : UnicodeTable) :
    ZenzConversionCache → Log (Question F) Question.Answer → Prop
  | fresh : CacheReached arithmetic quarter half unicode {} []
  | discarded {cache log} : CacheReached arithmetic quarter half unicode cache log →
      CacheReached arithmetic quarter half unicode {} log
  | converted {cache log} {S : Type} (service : Service S (Question F) Question.Answer) (state : S)
      (tables : Input.InputTableRegistry) (session : ConversionSession)
      (options : ZenzConversionOptions F)
        {ran : Ran (Question F) Question.Answer S (Option Converted)}
      (hran : ran =
        (convert arithmetic quarter half unicode tables session cache options).run service state) :
      CacheReached arithmetic quarter half unicode cache log →
      CacheReached arithmetic quarter half unicode ((ran.value.map Converted.cache).getD cache)
        (log ++ ran.log)

def Passed (log : Log (Question F) Question.Answer) (candidate : Candidate) : Prop :=
  ∃ request score alternatives, request.candidate = candidate ∧
    ⟨.evaluate request, .ok (.pass score alternatives)⟩ ∈ log

end

section
variable {F : Type} {arithmetic : Arithmetic F} {quarter half : F} {unicode : UnicodeTable}

theorem Passed.append {log : Log (Question F) Question.Answer} {candidate : Candidate}
    (h : Passed log candidate) (after : Log (Question F) Question.Answer) :
    Passed (log ++ after) candidate := by
  obtain ⟨request, score, alternatives, hcandidate, hin⟩ := h
  exact ⟨request, score, alternatives, hcandidate, List.mem_append_left _ hin⟩

theorem CacheReached.passed {cache : ZenzConversionCache} {log : Log (Question F) Question.Answer}
    (h : CacheReached arithmetic quarter half unicode cache log) {candidate : Candidate}
    (hstored : cache.evaluatedSatisfyingCandidate = some candidate) : Passed log candidate := by
  induction h generalizing candidate with
  | fresh => cases hstored
  | discarded => cases hstored
  | @converted cache log S service state tables session options ran hran _ ih =>
    have hended := (@convert_bounded F arithmetic quarter half (fun _ _ _ => True) unicode tables
      session cache options).of_run service state
    have hreports := (@convert_ensures F arithmetic quarter half (fun _ _ _ => True) unicode tables
      session cache options).of_run service state
    rw [← hran] at hended hreports
    cases hvalue : ran.value with
    | none =>
      rw [hvalue] at hstored
      exact (ih hstored).append _
    | some converted =>
      rw [hvalue] at hstored
      have hleaves := hended.leaves converted hvalue
      by_cases hreviewed : ∃ reported, converted.reviewed = .ok (some reported)
      · obtain ⟨reported, hreported⟩ := hreviewed
        have hkept := (hleaves.reported reported hreported).2
        obtain rfl := Option.some.inj (hkept.symm.trans hstored)
        obtain ⟨before, after, constraint, score, alternatives, hlog, -⟩ :=
          hreports converted _ hvalue hreported
        refine ⟨(conversionInput tables session cache options).request constraint reported, score,
          alternatives, rfl, List.mem_append_right _ ?_⟩
        rw [hlog]
        exact List.mem_append_right _ List.mem_cons_self
      · cases hleaves.otherwise (fun reported h => hreviewed ⟨reported, h⟩) with
        | inl hnone => exact absurd (hnone.symm.trans hstored) (by simp)
        | inr hsame => exact (ih (hsame.symm.trans hstored)).append _

end

/-- Whatever the drafts and the reviews are: the loops end within the inferences they are given;
what is reported passed its last review, comes first and is kept as evaluated; no other conversion
keeps a new candidate as evaluated, so what any conversions in a row keep has passed a review. -/
theorem conversion_bounded {F : Type} (arithmetic : Arithmetic F) (quarter half : F)
    (unicode : UnicodeTable) :
    (∀ {S : Type} (service : Service S (Question F) Question.Answer) (state : S)
      (tables : Input.InputTableRegistry) (session : ConversionSession)
      (cache : ZenzConversionCache) (options : ZenzConversionOptions F),
      let ran :=
        (convert arithmetic quarter half unicode tables session cache options).run service state
      Bounded options.inferenceLimit ran.log ∧
        ∀ converted, ran.value = some converted →
          Leaves (conversionInput tables session cache options) converted ∧
          ∀ candidate, converted.reviewed = .ok (some candidate) →
            ∃ before after constraint score alternatives,
              ran.log = before ++ ⟨.evaluate
                ((conversionInput tables session cache options).request constraint candidate),
                .ok (.pass score alternatives)⟩ :: after ∧ ∀ event ∈ after, event.1.IsDraft) ∧
    ∀ cache log candidate, CacheReached arithmetic quarter half unicode cache log →
      cache.evaluatedSatisfyingCandidate = some candidate → Passed log candidate := by
  refine ⟨?_, fun cache log candidate hreached => hreached.passed⟩
  intro S service state tables session cache options ran
  have hended := (@convert_bounded F arithmetic quarter half (fun _ _ _ => True) unicode tables
    session cache options).of_run service state
  have hreports := (@convert_ensures F arithmetic quarter half (fun _ _ _ => True) unicode tables
    session cache options).of_run service state
  refine ⟨hended.bounded, fun converted hvalue => ⟨hended.leaves converted hvalue, ?_⟩⟩
  intro candidate hreviewed
  obtain ⟨before, after, constraint, score, alternatives, hlog, hdrafts, -⟩ :=
    hreports converted candidate hvalue hreviewed
  exact ⟨before, after, constraint, score, alternatives, hlog, hdrafts⟩

def draftedCandidate (text : Text) (value : ℚ) : Candidate where
  text
  value
  composingCount := .surface 1
  lastMeaningId := 0
  entries := []

/-- Drafts two candidates, asks for another one than the better and passes the next. -/
def fixingService : Service Bool (Question Int) Question.Answer
  | fixed, .draft _ _ =>
    (some [draftedCandidate ['葉', '市'] 0, draftedCandidate ['歯', '市'] (-1)], fixed)
  | false, .evaluate _ => (.ok (.fixRequired (utf8 ['歯'])), true)
  | true, .evaluate _ => (.ok (.pass 0 []), true)

def fixingRun : Ran (Question Int) Question.Answer Bool (Option Converted) :=
  (convert exactArithmetic 0 0 .kana Input.endingTables { composing := kanaText } {}
    { (pairCall {}).options with inferenceLimit := 2 }).run fixingService false

theorem conversion_bounded_fixed : ∃ converted candidate,
    fixingRun.value = some converted ∧ converted.reviewed = .ok (some candidate) ∧
    candidate.text = ['歯', '市'] ∧ converted.candidates.head? = some candidate ∧
    Bounded 2 fixingRun.log ∧ Passed fixingRun.log candidate := by
  obtain ⟨hruns, hreached⟩ := conversion_bounded exactArithmetic 0 0 .kana
  obtain ⟨hbounded, hleaves⟩ := hruns fixingService false Input.endingTables
    { composing := kanaText } {} { (pairCall {}).options with inferenceLimit := 2 }
  refine ⟨_, _, rfl, rfl, rfl, ((hleaves _ rfl).1.reported _ rfl).1, hbounded, ?_⟩
  exact hreached _ _ _ (.converted fixingService false Input.endingTables { composing := kanaText }
    { (pairCall {}).options with inferenceLimit := 2 } rfl .fresh) rfl

end BeanKey.Zenz
