import Mathlib.Algebra.Group.Nat.Defs
import Mathlib.Data.List.Range
import Mathlib.Logic.Function.Basic

/-! The inference context: the memory of the llama.cpp context, and the tokens the context has
recorded for each of its two sequences. -/
namespace BeanKey.Llama

def contextTokenLimit : Nat := 512

abbrev Token := Int

inductive LlamaError where
  | inputTooLong (count : Nat)
  | invalidLogitsRange (startIndex tokenCount : Nat)
  | decode (code : Int)
  deriving DecidableEq

inductive LlamaSequence where
  | evaluation | inputPrediction
  deriving DecidableEq

def LlamaSequence.other : LlamaSequence → LlamaSequence
  | .evaluation => .inputPrediction
  | .inputPrediction => .evaluation

/-! ### llama.cpp -/

/-- The tokens the memory holds for each sequence, by position. -/
abbrev Memory := LlamaSequence → List Token

namespace Memory

/-- `llama_memory_seq_rm` from a position to the end. -/
def seqRm (memory : Memory) (sequence : LlamaSequence) (first : Nat) : Memory :=
  Function.update memory sequence ((memory sequence).take first)

/-- `llama_memory_seq_cp` of the positions from `first` and before `last`. -/
def seqCp (memory : Memory) (source target : LlamaSequence) (first last : Nat) : Memory :=
  Function.update memory target
    ((memory target).take first ++ ((memory source).take last).drop first ++
      (memory target).drop last)

end Memory

structure BatchEntry where
  token : Token
  position : Nat
  sequence : LlamaSequence
  logits : Bool

section
variable {Row : Type} (rows : List Token → Row)

/-- `llama_decode`: each token goes behind those of its sequence, and has the row of logits of
the tokens up to it where one is asked for. `none` where a position does not come next. -/
def decode : Memory → List BatchEntry → Option (Memory × List Row)
  | memory, [] => some (memory, [])
  | memory, entry :: batch =>
    if entry.position = (memory entry.sequence).length then
      let held := memory entry.sequence ++ [entry.token]
      (decode (Function.update memory entry.sequence held) batch).map fun (after, outputs) =>
        (after, if entry.logits then rows held :: outputs else outputs)
    else none

/-- What llama.cpp answers during a call: whether it gives its memory, whether it removes a part
of a sequence, the code of its decoding, how much of the batch a failing one leaves in the
memory, and whether it gives the logits. -/
structure Answers where
  memory : Bool
  trimmed : Bool
  decodeCode : Int
  kept : Nat
  logits : Bool

/-! ### The context -/

structure LlamaContext where
  memory : Memory
  sequenceTokens : LlamaSequence → List Token
  vocabularySize : Nat

def LlamaContext.load (vocabularySize : Nat) : LlamaContext :=
  { memory := fun _ => [], sequenceTokens := fun _ => [], vocabularySize }

structure SequencePlan where
  source : Option LlamaSequence
  cachedPrefixCount : Nat

def commonPrefixCount (left right : List Token) : Nat :=
  ((left.zip right).takeWhile fun (left, right) => left = right).length

def LlamaContext.sequencePlan (context : LlamaContext) (tokens : List Token) (startIndex : Nat)
    (sequence : LlamaSequence) : SequencePlan :=
  let currentPrefix := commonPrefixCount (context.sequenceTokens sequence) tokens
  let otherPrefix := commonPrefixCount (context.sequenceTokens sequence.other) tokens
  let copiedPrefix := min otherPrefix startIndex
  if currentPrefix < otherPrefix ∧ 0 < copiedPrefix then ⟨some sequence.other, copiedPrefix⟩
  else ⟨none, min currentPrefix startIndex⟩

def batchFrom (tokens : List Token) (cached startIndex : Nat) (sequence : LlamaSequence) :
    List BatchEntry :=
  (tokens.zipIdx.drop cached).map fun (token, index) =>
    { token, position := index, sequence, logits := startIndex ≤ index }

def SequencePlan.copied (plan : SequencePlan) (memory : Memory) (sequence : LlamaSequence) :
    Memory :=
  match plan.source with
  | some source => (memory.seqRm sequence 0).seqCp source sequence 0 plan.cachedPrefixCount
  | none => memory

/-- Decodes the rest of the tokens and reads the rows of logits, or gives the code of what fails,
beside the memory it leaves. -/
def decodeRest (memory : Memory) (answers : Answers) (tokens : List Token)
    (cached startIndex : Nat) (sequence : LlamaSequence) : Except Int (List Row) × Memory :=
  if !answers.trimmed then (.error (-1), memory)
  else
    let memory := memory.seqRm sequence cached
    let batch := batchFrom tokens cached startIndex sequence
    if answers.decodeCode ≠ 0 then
      (.error answers.decodeCode,
        ((decode rows memory (batch.take answers.kept)).map Prod.fst).getD memory)
    else
      match decode rows memory batch with
      | none => (.error (-1), memory)
      | some (memory, outputs) =>
        if answers.logits then (.ok (outputs.take (tokens.length - startIndex)), memory)
        else (.error (-2), memory)

/-- The rows of logits from `startIndex` on, and the context after the call. -/
def logits (context : LlamaContext) (answers : Answers) (tokens : List Token) (startIndex : Nat)
    (sequence : LlamaSequence) : Except LlamaError (List Row) × LlamaContext :=
  if contextTokenLimit < tokens.length then (.error (.inputTooLong tokens.length), context)
  else if tokens.length ≤ startIndex then
    (.error (.invalidLogitsRange startIndex tokens.length), context)
  else if 2 ^ 64 ≤ (tokens.length - startIndex) * context.vocabularySize then
    (.error (.decode (-1)), context)
  else if !answers.memory then (.error (.decode (-1)), context)
  else
    let plan := context.sequencePlan tokens startIndex sequence
    let (result, memory) := decodeRest rows (plan.copied context.memory sequence) answers tokens
      plan.cachedPrefixCount startIndex sequence
    match result with
    | .error code =>
      -- Whatever the failure has left of the sequence goes, and its record with it.
      (.error (.decode code),
        { context with
          memory := memory.seqRm sequence 0
          sequenceTokens := Function.update context.sequenceTokens sequence [] })
    | .ok outputs =>
      (.ok outputs,
        { context with
          memory
          sequenceTokens := Function.update context.sequenceTokens sequence tokens })

def nextLogits (context : LlamaContext) (answers : Answers) (tokens : List Token) :
    Except LlamaError (List Row) × LlamaContext :=
  if tokens.length = 0 then (.error (.invalidLogitsRange 0 0), context)
  else logits rows context answers tokens (tokens.length - 1) .inputPrediction

end

/-! ### Decoding -/

section
variable {Row : Type} {rows : List Token → Row}

theorem take_commonPrefixCount {left right : List Token} {count : Nat}
    (h : count ≤ commonPrefixCount left right) : left.take count = right.take count := by
  induction count generalizing left right with
  | zero => simp
  | succ count ih =>
    cases left with
    | nil => simp [commonPrefixCount] at h
    | cons first left =>
      cases right with
      | nil => simp [commonPrefixCount] at h
      | cons second right =>
        by_cases heq : first = second
        · subst heq
          have hrest : count ≤ commonPrefixCount left right := by
            simpa [commonPrefixCount] using h
          rw [List.take_succ_cons, List.take_succ_cons, ih hrest]
        · simp [commonPrefixCount, heq] at h

theorem decode_other {sequence other : LlamaSequence} (hother : other ≠ sequence)
    {batch : List BatchEntry} (hbatch : ∀ entry ∈ batch, entry.sequence = sequence)
    {memory after : Memory} {outputs : List Row}
    (h : decode rows memory batch = some (after, outputs)) : after other = memory other := by
  induction batch generalizing memory outputs with
  | nil =>
    cases h
    rfl
  | cons entry batch ih =>
    have hentry := hbatch entry List.mem_cons_self
    rw [decode] at h
    split at h
    · obtain ⟨⟨reached, rest⟩, hrest, heq⟩ := Option.map_eq_some_iff.mp h
      cases heq
      rw [ih (fun entry hin => hbatch entry (List.mem_cons_of_mem _ hin)) hrest, hentry,
        Function.update_of_ne hother]
    · cases h

def rowsFrom (rows : List Token → Row) (tokens : List Token) (startIndex : Nat) : List Row :=
  (List.range' startIndex (tokens.length - startIndex)).map fun index =>
    rows (tokens.take (index + 1))

/-- Behind the tokens held, the rest is decoded in order. -/
theorem decode_rest (sequence : LlamaSequence) (startIndex : Nat) {memory : Memory}
    {held rest : List Token} (hheld : memory sequence = held) :
    decode rows memory ((rest.zipIdx held.length).map fun (token, index) =>
        { token, position := index, sequence, logits := startIndex ≤ index }) =
      some (Function.update memory sequence (held ++ rest),
        ((List.range' held.length rest.length).filter (startIndex ≤ ·)).map fun index =>
          rows ((held ++ rest).take (index + 1))) := by
  induction rest generalizing memory held with
  | nil =>
    simp [decode, ← hheld]
  | cons token rest ih =>
    subst hheld
    have hnext := @ih (Function.update memory sequence (memory sequence ++ [token])) _
      (Function.update_self _ _ _)
    rw [List.length_append, List.length_singleton, Function.update_idem, List.append_assoc,
      List.singleton_append] at hnext
    have hleads : (memory sequence ++ token :: rest).take ((memory sequence).length + 1) =
        memory sequence ++ [token] := by
      rw [List.append_cons]
      exact List.take_left' (by simp)
    rw [List.zipIdx_cons, List.map_cons, decode, if_pos rfl]
    dsimp only
    rw [hnext, List.length_cons, List.range'_succ, List.filter_cons]
    by_cases hask : startIndex ≤ (memory sequence).length
    · simp [hask, hleads]
    · simp [hask]

/-- Only the tokens from `startIndex` on ask for their rows. -/
theorem filter_rows {cached startIndex count : Nat} (hcached : cached ≤ startIndex)
    (hstart : startIndex ≤ count) :
    (List.range' cached (count - cached)).filter (startIndex ≤ ·) =
      List.range' startIndex (count - startIndex) := by
  have hsplit : List.range' cached (count - cached) =
      List.range' cached (startIndex - cached) ++ List.range' startIndex (count - startIndex) := by
    have happend : List.range' cached (startIndex - cached) ++
        List.range' (cached + (startIndex - cached)) (count - startIndex) =
          List.range' cached ((startIndex - cached) + (count - startIndex)) :=
      List.range'_append_1
    rw [Nat.add_sub_cancel' hcached] at happend
    rw [happend]
    congr 1
    omega
  have hbefore : (List.range' cached (startIndex - cached)).filter (startIndex ≤ ·) = [] := by
    apply List.filter_eq_nil_iff.mpr
    intro index hin
    have := (List.mem_range'_1.mp hin).2
    simp
    omega
  have hafter : (List.range' startIndex (count - startIndex)).filter (startIndex ≤ ·) =
      List.range' startIndex (count - startIndex) := by
    apply List.filter_eq_self.mpr
    intro index hin
    simpa using (List.mem_range'_1.mp hin).1
  rw [hsplit, List.filter_append, hbefore, hafter, List.nil_append]

theorem batchFrom_eq (tokens : List Token) {cached : Nat} (startIndex : Nat)
    (sequence : LlamaSequence) (hcached : cached ≤ tokens.length) :
    batchFrom tokens cached startIndex sequence =
      ((tokens.drop cached).zipIdx (tokens.take cached).length).map fun (token, index) =>
        { token, position := index, sequence, logits := startIndex ≤ index } := by
  have hdrop : tokens.zipIdx.drop cached =
      (tokens.drop cached).zipIdx (tokens.take cached).length := by
    have hall : (tokens.take cached ++ tokens.drop cached).zipIdx =
        (tokens.take cached).zipIdx ++
          (tokens.drop cached).zipIdx (0 + (tokens.take cached).length) := List.zipIdx_append
    rw [List.take_append_drop, Nat.zero_add] at hall
    rw [hall]
    exact List.drop_left' (by simp [hcached])
  rw [batchFrom, hdrop]

theorem batchFrom_sequence {tokens : List Token} {cached startIndex : Nat}
    {sequence : LlamaSequence} :
    ∀ entry ∈ batchFrom tokens cached startIndex sequence, entry.sequence = sequence := by
  intro entry hin
  obtain ⟨pair, -, rfl⟩ := List.mem_map.mp hin
  rfl

/-! ### The mirror -/

/-- The record of each sequence is what the memory holds for it. -/
def LlamaContext.Mirrors (context : LlamaContext) : Prop :=
  ∀ sequence, context.sequenceTokens sequence = context.memory sequence

/-- The plan keeps a prefix of the tokens: once it is copied and the rest is removed, the sequence
holds that prefix, and the other one what it held. -/
theorem planned_memory {context : LlamaContext} (hmirror : context.Mirrors) (tokens : List Token)
    (startIndex : Nat) (sequence : LlamaSequence) :
    let plan := context.sequencePlan tokens startIndex sequence
    plan.cachedPrefixCount ≤ startIndex ∧
      (plan.copied context.memory sequence sequence).take plan.cachedPrefixCount =
        tokens.take plan.cachedPrefixCount ∧
      ∀ other ≠ sequence, plan.copied context.memory sequence other = context.memory other := by
  unfold LlamaContext.sequencePlan
  dsimp only
  rw [hmirror sequence, hmirror sequence.other]
  split
  · refine ⟨Nat.min_le_right _ _, ?_, ?_⟩
    · have hne : sequence.other ≠ sequence := by cases sequence <;> exact LlamaSequence.noConfusion
      have hshared : (context.memory sequence.other).take
          (min (commonPrefixCount (context.memory sequence.other) tokens) startIndex) =
          tokens.take (min (commonPrefixCount (context.memory sequence.other) tokens) startIndex) :=
        take_commonPrefixCount (Nat.min_le_left _ _)
      simp [SequencePlan.copied, Memory.seqCp, Memory.seqRm, Function.update_of_ne hne, hshared,
        List.take_take]
    · intro other hother
      simp [SequencePlan.copied, Memory.seqCp, Memory.seqRm, Function.update_of_ne hother]
  · exact ⟨Nat.min_le_right _ _, take_commonPrefixCount (Nat.min_le_left _ _), fun _ _ => rfl⟩

/-- What a call gives for tokens behind a cached prefix: it depends neither on the prefix nor on
what the memory holds else. -/
def expected (rows : List Token → Row) (answers : Answers) (tokens : List Token)
    (startIndex : Nat) : Except Int (List Row) :=
  if !answers.trimmed then .error (-1)
  else if answers.decodeCode ≠ 0 then .error answers.decodeCode
  else if answers.logits then .ok (rowsFrom rows tokens startIndex)
  else .error (-2)

theorem decodeRest_spec {memory : Memory} (answers : Answers) {tokens : List Token}
    {cached startIndex : Nat} (sequence : LlamaSequence) (hcached : cached ≤ startIndex)
    (hstart : startIndex < tokens.length)
    (hheld : (memory sequence).take cached = tokens.take cached) :
    (decodeRest rows memory answers tokens cached startIndex sequence).1 =
        expected rows answers tokens startIndex ∧
      (∀ other ≠ sequence,
        (decodeRest rows memory answers tokens cached startIndex sequence).2 other = memory other) ∧
      ∀ outputs, expected rows answers tokens startIndex = .ok outputs →
        (decodeRest rows memory answers tokens cached startIndex sequence).2 sequence = tokens := by
  have htrimmed : memory.seqRm sequence cached sequence = tokens.take cached := by
    rw [Memory.seqRm, Function.update_self, hheld]
  have hother : ∀ other ≠ sequence, memory.seqRm sequence cached other = memory other :=
    fun other hne => Function.update_of_ne hne _ _
  have hdecode : decode rows (memory.seqRm sequence cached)
      (batchFrom tokens cached startIndex sequence) =
      some (Function.update (memory.seqRm sequence cached) sequence tokens,
        rowsFrom rows tokens startIndex) := by
    have hlength : (tokens.take cached).length = cached := by
      rw [List.length_take, Nat.min_eq_left (by omega)]
    have hrest : (tokens.drop cached).length = tokens.length - cached := List.length_drop
    rw [batchFrom_eq tokens startIndex sequence (by omega),
      decode_rest sequence startIndex htrimmed, List.take_append_drop, hlength, hrest,
      filter_rows hcached hstart.le]
    rfl
  unfold decodeRest expected
  dsimp only
  by_cases htrim : answers.trimmed = true
  · simp only [htrim, Bool.not_true, Bool.false_eq_true, if_false]
    by_cases hcode : answers.decodeCode ≠ 0
    · rw [if_pos hcode, if_pos hcode]
      refine ⟨rfl, ?_, fun outputs h => nomatch h⟩
      intro other hne
      cases hkept : decode rows (memory.seqRm sequence cached)
          ((batchFrom tokens cached startIndex sequence).take answers.kept) with
      | none => exact hother other hne
      | some left =>
        obtain ⟨after, outputs⟩ := left
        refine (decode_other hne (fun entry hin => ?_) hkept).trans (hother other hne)
        exact batchFrom_sequence entry (List.mem_of_mem_take hin)
    · rw [if_neg hcode, if_neg hcode, hdecode]
      dsimp only
      refine ⟨?_, ?_, ?_⟩
      · split
        · rw [List.take_of_length_le (by simp [rowsFrom])]
        · rfl
      · intro other hne
        have hkept : Function.update (memory.seqRm sequence cached) sequence tokens other =
            memory other := (Function.update_of_ne hne _ _).trans (hother other hne)
        split <;> exact hkept
      · intro outputs hok
        split
        · exact Function.update_self _ _ _
        · rename_i hlogits
          rw [if_neg hlogits] at hok
          cases hok
  · simp only [htrim, Bool.not_false, if_true]
    exact ⟨trivial, fun _ _ => trivial, fun outputs h => nomatch h⟩

def answer (rows : List Token → Row) (vocabularySize : Nat) (answers : Answers)
    (tokens : List Token) (startIndex : Nat) : Except LlamaError (List Row) :=
  if contextTokenLimit < tokens.length then .error (.inputTooLong tokens.length)
  else if tokens.length ≤ startIndex then .error (.invalidLogitsRange startIndex tokens.length)
  else if 2 ^ 64 ≤ (tokens.length - startIndex) * vocabularySize then .error (.decode (-1))
  else if !answers.memory then .error (.decode (-1))
  else (expected rows answers tokens startIndex).mapError .decode

/-- What a call gives, and that the record stays a mirror, on every path. -/
theorem logits_spec {context : LlamaContext} (hmirror : context.Mirrors) (answers : Answers)
    (tokens : List Token) (startIndex : Nat) (sequence : LlamaSequence) :
    (logits rows context answers tokens startIndex sequence).1 =
        answer rows context.vocabularySize answers tokens startIndex ∧
      (logits rows context answers tokens startIndex sequence).2.Mirrors ∧
      (logits rows context answers tokens startIndex sequence).2.vocabularySize =
        context.vocabularySize := by
  unfold logits answer
  split
  · exact ⟨rfl, hmirror, rfl⟩
  · split
    · exact ⟨rfl, hmirror, rfl⟩
    · split
      · exact ⟨rfl, hmirror, rfl⟩
      · split
        · exact ⟨rfl, hmirror, rfl⟩
        · rename_i hstart _ _
          obtain ⟨hcached, hheld, hkept⟩ := planned_memory hmirror tokens startIndex sequence
          obtain ⟨hresult, hothers, hdone⟩ := decodeRest_spec answers sequence hcached
            (Nat.not_le.mp hstart) hheld
          rw [← hresult] at hdone ⊢
          clear hresult
          dsimp only
          generalize decodeRest rows _ answers tokens _ startIndex sequence = decoded
            at hothers hdone ⊢
          obtain ⟨result, memory⟩ := decoded
          have hkept (other : LlamaSequence) (hne : other ≠ sequence) :
              context.sequenceTokens other = memory other := by
            rw [hmirror other, ← hkept other hne, ← hothers other hne]
          cases result with
          | error code =>
            refine ⟨rfl, ?_, rfl⟩
            intro other
            by_cases hne : other = sequence
            · subst hne
              simp [Memory.seqRm]
            · simp [Memory.seqRm, Function.update_of_ne hne, hkept other hne]
          | ok outputs =>
            refine ⟨rfl, ?_, rfl⟩
            intro other
            by_cases hne : other = sequence
            · subst hne
              have hheld : memory other = tokens := hdone outputs rfl
              simp [hheld]
            · simp [Function.update_of_ne hne, hkept other hne]

/-! ### Runs of calls -/

inductive Call where
  | logits (answers : Answers) (tokens : List Token) (startIndex : Nat) (sequence : LlamaSequence)
  | nextLogits (answers : Answers) (tokens : List Token)

section
variable (rows : List Token → Row)

def Call.call (context : LlamaContext) : Call → Except LlamaError (List Row) × LlamaContext
  | .logits answers tokens startIndex sequence =>
    Llama.logits rows context answers tokens startIndex sequence
  | .nextLogits answers tokens => Llama.nextLogits rows context answers tokens

def Call.run (context : LlamaContext) (calls : List Call) : LlamaContext :=
  calls.foldl (fun context call => (call.call rows context).2) context

def Call.answer (vocabularySize : Nat) : Call → Except LlamaError (List Row)
  | .logits answers tokens startIndex _ =>
    Llama.answer rows vocabularySize answers tokens startIndex
  | .nextLogits answers tokens =>
    if tokens.length = 0 then .error (.invalidLogitsRange 0 0)
    else Llama.answer rows vocabularySize answers tokens (tokens.length - 1)

end

theorem call_spec {context : LlamaContext} (hmirror : context.Mirrors) (call : Call) :
    (call.call rows context).1 = call.answer rows context.vocabularySize ∧
      (call.call rows context).2.Mirrors ∧
      (call.call rows context).2.vocabularySize = context.vocabularySize := by
  cases call with
  | logits answers tokens startIndex sequence =>
    exact logits_spec hmirror answers tokens startIndex sequence
  | nextLogits answers tokens =>
    unfold Call.call Call.answer nextLogits
    dsimp only
    split
    · exact ⟨rfl, hmirror, rfl⟩
    · exact logits_spec hmirror answers tokens _ .inputPrediction

theorem run_mirrors (calls : List Call) {context : LlamaContext} (hmirror : context.Mirrors) :
    (Call.run rows context calls).Mirrors ∧
      (Call.run rows context calls).vocabularySize = context.vocabularySize := by
  induction calls generalizing context with
  | nil => exact ⟨hmirror, rfl⟩
  | cons call calls ih =>
    obtain ⟨-, hnext, hsize⟩ := call_spec hmirror call
    obtain ⟨hrun, hkept⟩ := ih hnext
    exact ⟨hrun, hkept.trans hsize⟩

theorem load_mirrors (vocabularySize : Nat) : (LlamaContext.load vocabularySize).Mirrors :=
  fun _ => rfl

/-- After any calls the record of each sequence is what the memory holds for it, and a call gives
what it gives on a fresh context. -/
theorem sequenceTokens_mirror (rows : List Token → Row) (vocabularySize : Nat)
    (calls : List Call) :
    let context := Call.run rows (LlamaContext.load vocabularySize) calls
    (∀ sequence, context.sequenceTokens sequence = context.memory sequence) ∧
      ∀ call : Call, (call.call rows context).1 =
        (call.call rows (LlamaContext.load vocabularySize)).1 := by
  intro context
  obtain ⟨hmirror, hsize⟩ := run_mirrors calls (load_mirrors vocabularySize)
  refine ⟨hmirror, fun call => ?_⟩
  rw [(call_spec hmirror call).1, (call_spec (load_mirrors vocabularySize) call).1, hsize]

end

end BeanKey.Llama
