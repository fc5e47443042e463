import BeanKey.Llama.Context
import Mathlib.Data.Finset.Card
import Mathlib.Data.List.TakeWhile

/-! The cells of the memory that the two sequences of the context hold. A copied prefix is held by
both, and a decoding fails for lack of space where the cells would be more than the context has. -/
namespace BeanKey.Llama

/-! ### Lists with a shared start -/

/-- Two lists without repetition that have their start in common and nothing else. -/
def Shares (own other shared : List Nat) : Prop :=
  ∃ ownRest otherRest, own = shared ++ ownRest ∧ other = shared ++ otherRest ∧
    (shared ++ (ownRest ++ otherRest)).Nodup

def sharedCount (own other : List Nat) : Nat :=
  ((own.zip other).takeWhile fun (left, right) => left = right).length

namespace Shares
variable {own other shared : List Nat}

theorem symm (h : Shares own other shared) : Shares other own shared := by
  obtain ⟨ownRest, otherRest, rfl, rfl, hnodup⟩ := h
  exact ⟨otherRest, ownRest, rfl, rfl,
    (List.Perm.append_left shared List.perm_append_comm).nodup_iff.mp hnodup⟩

theorem nil : Shares [] [] [] := ⟨[], [], rfl, rfl, List.nodup_nil⟩

theorem length_le (h : Shares own other shared) : shared.length ≤ own.length := by
  obtain ⟨ownRest, otherRest, rfl, rfl, -⟩ := h
  simp

theorem card_union (h : Shares own other shared) :
    (own.toFinset ∪ other.toFinset).card = own.length + other.length - shared.length := by
  obtain ⟨ownRest, otherRest, rfl, rfl, hnodup⟩ := h
  have hall : (shared ++ ownRest).toFinset ∪ (shared ++ otherRest).toFinset =
      (shared ++ (ownRest ++ otherRest)).toFinset := by
    ext cell
    simp only [Finset.mem_union, List.mem_toFinset, List.mem_append]
    tauto
  rw [hall, List.toFinset_card_of_nodup hnodup]
  simp only [List.length_append]
  omega

theorem take (h : Shares own other shared) (count : Nat) :
    Shares (own.take count) other (shared.take count) := by
  obtain ⟨ownRest, otherRest, rfl, rfl, hnodup⟩ := h
  refine ⟨ownRest.take (count - shared.length), shared.drop count ++ otherRest,
    List.take_append, ?_, ?_⟩
  · rw [← List.append_assoc, List.take_append_drop]
  · have hsub : (ownRest.take (count - shared.length) ++ otherRest).Sublist
        (ownRest ++ otherRest) :=
      (List.take_sublist _ _).append_right otherRest
    have hperm : (shared.take count ++ (ownRest.take (count - shared.length) ++
        (shared.drop count ++ otherRest))).Perm
        (shared ++ (ownRest.take (count - shared.length) ++ otherRest)) := by
      refine List.perm_iff_count.mpr fun cell => ?_
      have hsplit := congrArg (List.count cell) (List.take_append_drop count shared)
      simp only [List.count_append] at hsplit ⊢
      omega
    exact hperm.nodup_iff.mpr (hnodup.sublist (hsub.append_left shared))

theorem copied (h : Shares own other shared) (count : Nat) :
    Shares (other.take count) other (other.take count) := by
  obtain ⟨ownRest, otherRest, rfl, rfl, hnodup⟩ := h
  refine ⟨[], (shared ++ otherRest).drop count, (List.append_nil _).symm,
    (List.take_append_drop _ _).symm, ?_⟩
  rw [List.nil_append, List.take_append_drop]
  exact hnodup.sublist ((List.sublist_append_right _ _).append_left shared)

theorem append (h : Shares own other shared) {cells : List Nat} (hnodup : cells.Nodup)
    (hown : ∀ cell ∈ cells, cell ∉ own) (hother : ∀ cell ∈ cells, cell ∉ other) :
    Shares (own ++ cells) other shared := by
  obtain ⟨ownRest, otherRest, rfl, rfl, hall⟩ := h
  refine ⟨ownRest ++ cells, otherRest, List.append_assoc _ _ _, rfl, ?_⟩
  have hperm : (shared ++ (ownRest ++ cells ++ otherRest)).Perm
      (cells ++ (shared ++ (ownRest ++ otherRest))) := by
    refine List.perm_iff_count.mpr fun cell => ?_
    simp only [List.count_append]
    omega
  refine hperm.nodup_iff.mpr
    (List.nodup_append.mpr ⟨hnodup, hall, fun cell hcell held hheld heq => ?_⟩)
  subst heq
  simp only [List.mem_append] at hheld hown hother
  have hnown := hown cell hcell
  have hnother := hother cell hcell
  tauto

/-- How much is shared can be read off the lists. -/
theorem sharedCount (h : Shares own other shared) : sharedCount own other = shared.length := by
  obtain ⟨ownRest, otherRest, rfl, rfl, hnodup⟩ := h
  induction shared with
  | nil =>
    cases ownRest with
    | nil => simp [Llama.sharedCount]
    | cons first ownRest =>
      cases otherRest with
      | nil => simp [Llama.sharedCount]
      | cons second otherRest =>
        have hne : first ≠ second := by
          rintro rfl
          simp at hnodup
        simp [Llama.sharedCount, hne]
  | cons cell shared ih =>
    have hrest := ih (List.nodup_cons.mp hnodup).2
    simpa [Llama.sharedCount] using hrest

end Shares

/-! ### Cells -/

/-- `n_ctx` of the context parameters: the cells of the memory, for all sequences together, as
`kv_unified` is set. -/
def contextSize : Nat := contextTokenLimit

/-- The cells that each sequence holds, by position, and the first one that was never handed out. -/
structure Cells where
  held : LlamaSequence → List Nat
  next : Nat

namespace Cells

def empty : Cells := ⟨fun _ => [], 0⟩

/-- Each cell counts once, whoever holds it. -/
def used (cells : Cells) : Nat :=
  ((cells.held .evaluation).toFinset ∪ (cells.held .inputPrediction).toFinset).card

/-- `llama_memory_seq_rm` from a position to the end. -/
def seqRm (cells : Cells) (sequence : LlamaSequence) (first : Nat) : Cells :=
  { cells with held := Function.update cells.held sequence ((cells.held sequence).take first) }

/-- `llama_memory_seq_cp`: the copy holds the cells of the source. -/
def seqCp (cells : Cells) (source target : LlamaSequence) (first last : Nat) : Cells :=
  { cells with
    held := Function.update cells.held target
      ((cells.held target).take first ++ ((cells.held source).take last).drop first ++
        (cells.held target).drop last) }

/-- Every decoded token takes a cell of its own. -/
def decode (cells : Cells) (sequence : LlamaSequence) (count : Nat) : Cells where
  held := Function.update cells.held sequence
    (cells.held sequence ++ List.range' cells.next count)
  next := cells.next + count

end Cells

def SequencePlan.copiedCells (plan : SequencePlan) (cells : Cells)
    (sequence : LlamaSequence) : Cells :=
  match plan.source with
  | some source => (cells.seqRm sequence 0).seqCp source sequence 0 plan.cachedPrefixCount
  | none => cells

/-! ### Calls -/

structure LogitsCall where
  answers : Answers
  tokens : List Token
  startIndex : Nat
  sequence : LlamaSequence

def LogitsCall.passes (call : LogitsCall) (vocabularySize : Nat) : Bool :=
  call.tokens.length ≤ contextTokenLimit && call.startIndex < call.tokens.length &&
    (call.tokens.length - call.startIndex) * vocabularySize < 2 ^ 64 && call.answers.memory

structure PooledContext where
  context : LlamaContext
  cells : Cells

namespace PooledContext

def load (vocabularySize : Nat) : PooledContext := ⟨LlamaContext.load vocabularySize, Cells.empty⟩

def plan (pooled : PooledContext) (call : LogitsCall) : SequencePlan :=
  pooled.context.sequencePlan call.tokens call.startIndex call.sequence

def cached (pooled : PooledContext) (call : LogitsCall) : Cells :=
  ((pooled.plan call).copiedCells pooled.cells call.sequence).seqRm call.sequence
    (pooled.plan call).cachedPrefixCount

/-- The call comes to a decoding for which there is no space. -/
def lacksSpace (pooled : PooledContext) (call : LogitsCall) : Bool :=
  call.passes pooled.context.vocabularySize && call.answers.trimmed &&
    contextSize < (pooled.cached call).used +
      (call.tokens.length - (pooled.plan call).cachedPrefixCount)

/-- What llama.cpp answers: a decoding without space has the code 1. -/
def answers (pooled : PooledContext) (call : LogitsCall) : Answers :=
  if pooled.lacksSpace call then { call.answers with decodeCode := 1 } else call.answers

section
variable {Row : Type} (rows : List Token → Row)

/-- A call of the context, with what it makes of the cells: a failure gives up those of the
sequence. -/
def logits (pooled : PooledContext) (call : LogitsCall) :
    Except LlamaError (List Row) × PooledContext :=
  let (result, context) := Llama.logits rows pooled.context (pooled.answers call) call.tokens
    call.startIndex call.sequence
  if call.passes pooled.context.vocabularySize then
    match result with
    | .ok _ =>
      (result, ⟨context, (pooled.cached call).decode call.sequence
        (call.tokens.length - (pooled.plan call).cachedPrefixCount)⟩)
    | .error _ => (result, ⟨context, (pooled.cached call).seqRm call.sequence 0⟩)
  else (result, ⟨context, pooled.cells⟩)

def run (pooled : PooledContext) (calls : List LogitsCall) : PooledContext :=
  calls.foldl (fun pooled call => (pooled.logits rows call).2) pooled

end

/-- The cells of the kept prefix that the other sequence holds as well. -/
def sharedKept (pooled : PooledContext) (call : LogitsCall) : Nat :=
  match (pooled.plan call).source with
  | some _ => (pooled.plan call).cachedPrefixCount
  | none =>
    min (Llama.sharedCount (pooled.cells.held .evaluation) (pooled.cells.held .inputPrediction))
      (pooled.plan call).cachedPrefixCount

/-- Beside the tokens of the other sequence there is room for those of the call. -/
def Fits (pooled : PooledContext) (call : LogitsCall) : Prop :=
  call.passes pooled.context.vocabularySize → call.answers.trimmed →
    (pooled.context.sequenceTokens call.sequence.other).length + call.tokens.length -
      pooled.sharedKept call ≤ contextSize

end PooledContext

/-! ### What a call does to the records -/

theorem other_ne (sequence : LlamaSequence) : sequence.other ≠ sequence := by
  cases sequence <;> exact LlamaSequence.noConfusion

theorem eq_or_other (sequence other : LlamaSequence) :
    other = sequence ∨ other = sequence.other := by
  cases sequence <;> cases other <;> simp [LlamaSequence.other]

section
variable {Row : Type} {rows : List Token → Row} {pooled : PooledContext}

variable (rows) in
theorem logits_not_passing {context : LlamaContext} {call : LogitsCall} {answers : Answers}
    (hmemory : answers.memory = call.answers.memory)
    (h : call.passes context.vocabularySize = false) :
    (logits rows context answers call.tokens call.startIndex call.sequence).2 = context := by
  unfold logits
  split
  · rfl
  · next hlimit =>
    split
    · rfl
    · next hstart =>
      split
      · rfl
      · next hcount =>
        split
        · rfl
        · next hanswer =>
          rw [hmemory] at hanswer
          simp only [LogitsCall.passes, Bool.and_eq_false_iff, decide_eq_false_iff_not] at h
          simp only [Bool.not_eq_true, Bool.not_eq_false'] at hanswer
          obtain ((h | h) | h) | h := h
          · omega
          · omega
          · omega
          · rw [hanswer] at h
            cases h

variable (rows) in
/-- A call that passes them leaves the record of the other sequence as it is, and for its own the
tokens or nothing. -/
theorem logits_passing {context : LlamaContext} {call : LogitsCall} {answers : Answers}
    (hmemory : answers.memory = call.answers.memory)
    (h : call.passes context.vocabularySize = true) :
    (logits rows context answers call.tokens call.startIndex call.sequence).2.sequenceTokens =
      Function.update context.sequenceTokens call.sequence
        (match (logits rows context answers call.tokens call.startIndex call.sequence).1 with
          | .ok _ => call.tokens
          | .error _ => []) := by
  simp only [LogitsCall.passes, Bool.and_eq_true, decide_eq_true_eq] at h
  obtain ⟨⟨⟨hlimit, hstart⟩, hcount⟩, hanswer⟩ := h
  unfold logits
  rw [if_neg (by omega), if_neg (by omega), if_neg (by omega),
    if_neg (by rw [hmemory, hanswer]; simp)]
  dsimp only
  generalize decodeRest rows _ answers call.tokens _ call.startIndex call.sequence = decoded
  obtain ⟨result, memory⟩ := decoded
  cases result with
  | error code => rfl
  | ok outputs => rfl

theorem commonPrefixCount_le (left right : List Token) :
    commonPrefixCount left right ≤ left.length := by
  refine (List.takeWhile_sublist _).length_le.trans ?_
  rw [List.length_zip]
  exact Nat.min_le_left _ _

/-! ### Counting the cells -/

/-- The cells of each sequence are as many as its recorded tokens, and the sequences have only the
start in common. -/
structure PooledContext.Counted (pooled : PooledContext) : Prop where
  lengths : ∀ sequence, (pooled.cells.held sequence).length =
    (pooled.context.sequenceTokens sequence).length
  shares : ∃ shared, Shares (pooled.cells.held .evaluation)
    (pooled.cells.held .inputPrediction) shared
  fresh : ∀ sequence, ∀ cell ∈ pooled.cells.held sequence, cell < pooled.cells.next

namespace PooledContext

theorem load_counted (vocabularySize : Nat) : (load vocabularySize).Counted where
  lengths _ := rfl
  shares := ⟨[], Shares.nil⟩
  fresh _ _ hin := absurd hin List.not_mem_nil

/-- The same from the side of either sequence. -/
theorem Counted.shares_of (h : pooled.Counted) (sequence : LlamaSequence) :
    ∃ shared, Shares (pooled.cells.held sequence) (pooled.cells.held sequence.other) shared ∧
      Llama.sharedCount (pooled.cells.held .evaluation) (pooled.cells.held .inputPrediction) =
        shared.length := by
  obtain ⟨shared, hshares⟩ := h.shares
  cases sequence with
  | evaluation => exact ⟨shared, hshares, hshares.sharedCount⟩
  | inputPrediction => exact ⟨shared, hshares.symm, hshares.sharedCount⟩

theorem used_eq (cells : Cells) (sequence : LlamaSequence) :
    cells.used = ((cells.held sequence).toFinset ∪ (cells.held sequence.other).toFinset).card := by
  cases sequence with
  | evaluation => rfl
  | inputPrediction => rw [Cells.used, Finset.union_comm]; rfl

/-- The cells a call decodes behind: the kept prefix of its sequence, and those of the other one. -/
structure Kept (pooled : PooledContext) (call : LogitsCall) : Prop where
  other : (pooled.cached call).held call.sequence.other = pooled.cells.held call.sequence.other
  length : ((pooled.cached call).held call.sequence).length = (pooled.plan call).cachedPrefixCount
  next : (pooled.cached call).next = pooled.cells.next
  shares : ∃ shared, Shares ((pooled.cached call).held call.sequence)
    ((pooled.cached call).held call.sequence.other) shared ∧ shared.length = pooled.sharedKept call
  fresh : ∀ cell ∈ (pooled.cached call).held call.sequence, cell < pooled.cells.next
  start : (pooled.plan call).cachedPrefixCount ≤ call.startIndex

/-- What the sequence is left with is the start of one of the sequences, as long as the plan
says. -/
theorem Counted.kept_start (h : pooled.Counted) {call : LogitsCall} {copied : Option LlamaSequence}
    {source : LlamaSequence} {cached : Nat} {shared : List Nat}
    (hplan : pooled.plan call = ⟨copied, cached⟩)
    (hcached : cached = min (commonPrefixCount (pooled.context.sequenceTokens source) call.tokens)
      call.startIndex)
    (hheld : (pooled.cached call).held call.sequence = (pooled.cells.held source).take cached)
    (hother : (pooled.cached call).held call.sequence.other = pooled.cells.held call.sequence.other)
    (hshares : Shares ((pooled.cells.held source).take cached)
      (pooled.cells.held call.sequence.other)
      shared)
    (hcount : cached ≤ (pooled.cells.held source).length → shared.length = pooled.sharedKept call) :
    pooled.Kept call := by
  have hle : cached ≤ (pooled.cells.held source).length := by
    have hprefix := commonPrefixCount_le (pooled.context.sequenceTokens source) call.tokens
    rw [h.lengths]
    omega
  constructor
  case other => exact hother
  case length => rw [hheld, hplan, List.length_take, Nat.min_eq_left hle]
  case next =>
    rw [PooledContext.cached, hplan]
    cases copied with
    | none => rfl
    | some source => rfl
  case shares =>
    rw [hheld, hother]
    exact ⟨shared, hshares, hcount hle⟩
  case fresh =>
    intro cell hin
    rw [hheld] at hin
    exact h.fresh _ cell (List.mem_of_mem_take hin)
  case start =>
    rw [hplan, hcached]
    exact Nat.min_le_right _ _

theorem Counted.kept (h : pooled.Counted) (call : LogitsCall) : pooled.Kept call := by
  obtain ⟨shared, hshares, hcount⟩ := h.shares_of call.sequence
  have hne := other_ne call.sequence
  by_cases hcopy : commonPrefixCount (pooled.context.sequenceTokens call.sequence) call.tokens <
      commonPrefixCount (pooled.context.sequenceTokens call.sequence.other) call.tokens ∧
      0 < min (commonPrefixCount (pooled.context.sequenceTokens call.sequence.other) call.tokens)
        call.startIndex
  · -- the prefix is copied from the other sequence
    have hplan : pooled.plan call = ⟨some call.sequence.other,
        min (commonPrefixCount (pooled.context.sequenceTokens call.sequence.other) call.tokens)
          call.startIndex⟩ := by
      rw [plan, LlamaContext.sequencePlan, if_pos hcopy]
    refine h.kept_start hplan rfl ?_ ?_ (hshares.copied _) fun hle => ?_
    · simp [PooledContext.cached, hplan, SequencePlan.copiedCells, Cells.seqRm, Cells.seqCp, hne,
        List.take_take]
    · simp [PooledContext.cached, hplan, SequencePlan.copiedCells, Cells.seqRm, Cells.seqCp, hne]
    · rw [List.length_take, Nat.min_eq_left hle, sharedKept, hplan]
  · have hplan : pooled.plan call = ⟨none,
        min (commonPrefixCount (pooled.context.sequenceTokens call.sequence) call.tokens)
          call.startIndex⟩ := by
      rw [plan, LlamaContext.sequencePlan, if_neg hcopy]
    refine h.kept_start hplan rfl ?_ ?_ (hshares.take _) fun _ => ?_
    · simp [PooledContext.cached, hplan, SequencePlan.copiedCells, Cells.seqRm]
    · simp [PooledContext.cached, hplan, SequencePlan.copiedCells, Cells.seqRm, hne]
    · rw [List.length_take, sharedKept, hplan, hcount]
      exact Nat.min_comm _ _

/-- There is space for a call where it fits beside what the other sequence holds. -/
theorem Counted.lacksSpace_iff (h : pooled.Counted) (call : LogitsCall) :
    pooled.lacksSpace call = false ↔ pooled.Fits call := by
  have hkept := h.kept call
  obtain ⟨shared, hshares, hcount⟩ := hkept.shares
  have hused := hshares.card_union
  have hsharedLe := hshares.length_le
  have hlengths := h.lengths call.sequence.other
  have hstart := hkept.start
  rw [← used_eq, hkept.length, hkept.other, hlengths, hcount] at hused
  rw [hkept.length, hcount] at hsharedLe
  unfold lacksSpace Fits
  by_cases hpasses : call.passes pooled.context.vocabularySize
  · have hinside : call.startIndex < call.tokens.length := by
      simp only [LogitsCall.passes, Bool.and_eq_true, decide_eq_true_eq] at hpasses
      exact hpasses.1.1.2
    by_cases htrimmed : call.answers.trimmed
    · simp only [hpasses, htrimmed, Bool.true_and, decide_eq_false_iff_not, not_lt, forall_const]
      omega
    · simp [htrimmed]
  · simp [hpasses]

theorem counted_of_sides {pooled : PooledContext} (sequence : LlamaSequence) (shared : List Nat)
    (hshares : Shares (pooled.cells.held sequence) (pooled.cells.held sequence.other) shared)
    (hlengths : (pooled.cells.held sequence).length =
      (pooled.context.sequenceTokens sequence).length ∧
      (pooled.cells.held sequence.other).length =
      (pooled.context.sequenceTokens sequence.other).length)
    (hfresh : (∀ cell ∈ pooled.cells.held sequence, cell < pooled.cells.next) ∧
      ∀ cell ∈ pooled.cells.held sequence.other, cell < pooled.cells.next) : pooled.Counted := by
  constructor
  case lengths =>
    intro other
    obtain rfl | rfl := eq_or_other sequence other
    · exact hlengths.1
    · exact hlengths.2
  case shares =>
    cases sequence with
    | evaluation => exact ⟨shared, hshares⟩
    | inputPrediction => exact ⟨shared, hshares.symm⟩
  case fresh =>
    intro other
    obtain rfl | rfl := eq_or_other sequence other
    · exact hfresh.1
    · exact hfresh.2

theorem answers_memory (pooled : PooledContext) (call : LogitsCall) :
    (pooled.answers call).memory = call.answers.memory := by
  unfold answers
  split <;> rfl

theorem context_logits (rows : List Token → Row) (pooled : PooledContext) (call : LogitsCall) :
    (pooled.logits rows call).2.context =
      (Llama.logits rows pooled.context (pooled.answers call) call.tokens call.startIndex
        call.sequence).2 := by
  unfold PooledContext.logits
  dsimp only
  split
  · split
    · rfl
    · rfl
  · rfl

theorem Counted.logits (h : pooled.Counted) (call : LogitsCall) :
    (pooled.logits rows call).2.Counted := by
  have hmemory := answers_memory pooled call
  have hne := other_ne call.sequence
  unfold PooledContext.logits
  cases hpasses : call.passes pooled.context.vocabularySize with
  | false =>
    have hsame := logits_not_passing rows hmemory hpasses
    dsimp only
    rw [hsame]
    exact h
  | true =>
    have hrecord := logits_passing rows hmemory hpasses
    have hkept := h.kept call
    obtain ⟨shared, hshares, -⟩ := hkept.shares
    have hother := h.lengths call.sequence.other
    rw [← hkept.other] at hother
    have hfresh : ∀ cell ∈ (pooled.cached call).held call.sequence.other,
        cell < pooled.cells.next := by
      rw [hkept.other]
      exact h.fresh _
    have hinside : (pooled.plan call).cachedPrefixCount ≤ call.tokens.length := by
      have hstart := hkept.start
      simp only [LogitsCall.passes, Bool.and_eq_true, decide_eq_true_eq] at hpasses
      omega
    dsimp only
    generalize Llama.logits rows pooled.context (pooled.answers call) call.tokens call.startIndex
      call.sequence = outcome at hrecord ⊢
    obtain ⟨result, context⟩ := outcome
    simp only [if_true] at hrecord ⊢
    cases result with
    | error _ =>
      refine counted_of_sides call.sequence (shared.take 0) ?_ ⟨?_, ?_⟩ ⟨?_, ?_⟩
      · simpa [Cells.seqRm, hne] using hshares.take 0
      · simp [Cells.seqRm, hrecord]
      · simpa [Cells.seqRm, hrecord, hne] using hother
      · simp [Cells.seqRm]
      · simpa [Cells.seqRm, hne, hkept.next] using hfresh
    | ok _ =>
      have hnew : ∀ cell ∈ List.range' (pooled.cached call).next
          (call.tokens.length - (pooled.plan call).cachedPrefixCount),
            pooled.cells.next ≤ cell := by
        intro cell hin
        rw [← hkept.next]
        exact (List.mem_range'_1.mp hin).1
      have happend := hshares.append (List.nodup_range'
          (s := (pooled.cached call).next)
            (n := call.tokens.length - (pooled.plan call).cachedPrefixCount))
        (fun cell hin hheld => absurd (hkept.fresh cell hheld) (Nat.not_lt.mpr (hnew cell hin)))
        (fun cell hin hheld => absurd (hfresh cell hheld) (Nat.not_lt.mpr (hnew cell hin)))
      refine counted_of_sides call.sequence shared ?_ ⟨?_, ?_⟩ ⟨?_, ?_⟩
      · simpa [Cells.decode, hne] using happend
      · simp [Cells.decode, hrecord, hkept.length, hinside]
      · simpa [Cells.decode, hrecord, hne] using hother
      · intro cell hin
        simp only [Cells.decode, Function.update_self, List.mem_append, hkept.next] at hin ⊢
        cases hin with
        | inl hheld => exact (hkept.fresh cell hheld).trans_le (Nat.le_add_right _ _)
        | inr hnew => exact (List.mem_range'_1.mp hnew).2
      · intro cell hin
        simp only [Cells.decode, Function.update_of_ne hne, hkept.next] at hin ⊢
        exact (hfresh cell hin).trans_le (Nat.le_add_right _ _)

variable (rows) in
theorem run_counted (h : pooled.Counted) (calls : List LogitsCall) :
    (pooled.run rows calls).Counted := by
  induction calls generalizing pooled with
  | nil => exact h
  | cons call calls ih => exact ih (h.logits call)

/-- The records are no longer than the longest tokens of the calls. -/
theorem record_le (rows : List Token → Row) {bound : Nat} (pooled : PooledContext)
    (calls : List LogitsCall) (hcalls : ∀ call ∈ calls, call.tokens.length ≤ bound)
    (hpooled : ∀ sequence, (pooled.context.sequenceTokens sequence).length ≤ bound) :
    ∀ sequence, ((pooled.run rows calls).context.sequenceTokens sequence).length ≤ bound := by
  induction calls generalizing pooled with
  | nil => exact hpooled
  | cons call calls ih =>
    obtain ⟨hcall, hrest⟩ := List.forall_mem_cons.mp hcalls
    refine ih (pooled.logits rows call).2 hrest fun sequence => ?_
    rw [context_logits]
    cases hpasses : call.passes pooled.context.vocabularySize with
    | false =>
      rw [logits_not_passing rows (answers_memory pooled call) hpasses]
      exact hpooled sequence
    | true =>
      rw [logits_passing rows (answers_memory pooled call) hpasses]
      by_cases heq : sequence = call.sequence
      · subst heq
        rw [Function.update_self]
        split
        · exact hcall
        · exact Nat.zero_le _
      · rw [Function.update_of_ne heq]
        exact hpooled sequence

/-- Tokens of at most half the limit always fit. -/
theorem lacksSpace_of_halves (rows : List Token → Row) (vocabularySize : Nat)
    (calls : List LogitsCall)
    (call : LogitsCall) (hcalls : ∀ other ∈ calls, other.tokens.length ≤ contextTokenLimit / 2)
    (hcall : call.tokens.length ≤ contextTokenLimit / 2) :
    ((load vocabularySize).run rows calls).lacksSpace call = false := by
  refine ((run_counted rows (load_counted vocabularySize) calls).lacksSpace_iff call).mpr fun _ _ =>
    ?_
  have hother := record_le rows (load vocabularySize) calls hcalls (fun _ => Nat.zero_le _)
    call.sequence.other
  have hhalves : contextTokenLimit / 2 + contextTokenLimit / 2 = contextSize := rfl
  omega

/-- In every run no call fails for lack of space exactly where every call fits beside what the other
sequence holds before it, as all do whose tokens are at most half the limit. -/
theorem space_iff_fits (rows : List Token → Row) (vocabularySize : Nat) (calls : List LogitsCall) :
    ((∀ before call after, calls = before ++ call :: after →
        ((load vocabularySize).run rows before).lacksSpace call = false) ↔
      ∀ before call after, calls = before ++ call :: after →
        ((load vocabularySize).run rows before).Fits call) ∧
    ((∀ call ∈ calls, call.tokens.length ≤ contextTokenLimit / 2) →
      ∀ before call after, calls = before ++ call :: after →
        ((load vocabularySize).run rows before).lacksSpace call = false) := by
  have hcounted := fun before => run_counted rows (load_counted vocabularySize) before
  refine ⟨⟨?_, ?_⟩, ?_⟩
  · intro h before call after hsplit
    exact ((hcounted before).lacksSpace_iff call).mp (h before call after hsplit)
  · intro h before call after hsplit
    exact ((hcounted before).lacksSpace_iff call).mpr (h before call after hsplit)
  · rintro hhalves before call after rfl
    exact lacksSpace_of_halves rows vocabularySize before call
      (fun other hother => hhalves other (List.mem_append_left _ hother)) (hhalves call (by simp))

/-- A call that is answered in a fresh context leaves its tokens in the record. -/
theorem record_of_fresh (rows : List Token → Row) {vocabularySize : Nat} {call : LogitsCall}
    (hpasses : call.passes vocabularySize = true) (htrimmed : call.answers.trimmed = true)
    (hdecode : call.answers.decodeCode = 0) (hlogits : call.answers.logits = true) :
    ((load vocabularySize).run rows [call]).context.vocabularySize = vocabularySize ∧
      ((load vocabularySize).run rows [call]).context.sequenceTokens =
        Function.update (fun _ => []) call.sequence call.tokens := by
  have hlimit := hpasses
  simp only [LogitsCall.passes, Bool.and_eq_true, decide_eq_true_eq] at hlimit
  obtain ⟨⟨⟨hlimit, hstart⟩, hcount⟩, hmemory⟩ := hlimit
  have hspace : (load vocabularySize).lacksSpace call = false := by
    refine ((load_counted vocabularySize).lacksSpace_iff call).mpr fun _ _ => ?_
    change 0 + call.tokens.length - _ ≤ contextTokenLimit
    omega
  have hanswers : (load vocabularySize).answers call = call.answers := by
    rw [answers, hspace]
    rfl
  have hresult :
      (Llama.logits rows (load vocabularySize).context call.answers call.tokens call.startIndex
      call.sequence).1 = .ok (rowsFrom rows call.tokens call.startIndex) := by
    refine (logits_spec (load_mirrors vocabularySize) call.answers call.tokens call.startIndex
      call.sequence).1.trans ?_
    change answer rows vocabularySize _ _ _ = _
    rw [answer, if_neg (by omega), if_neg (by omega), if_neg (Nat.not_le.mpr hcount),
      if_neg (by simp [hmemory]), expected]
    simp [htrimmed, hdecode, hlogits, Except.mapError]
  change ((load vocabularySize).logits rows call).2.context.vocabularySize = _ ∧
    ((load vocabularySize).logits rows call).2.context.sequenceTokens = _
  rw [context_logits, hanswers, logits_passing rows rfl hpasses, hresult]
  exact ⟨(logits_spec (load_mirrors vocabularySize) call.answers call.tokens call.startIndex
    call.sequence).2.2, rfl⟩

end PooledContext
end

/-- Nothing is kept for tokens that begin like neither record. -/
theorem PooledContext.sharedKept_of_nothing (pooled : PooledContext) (call : LogitsCall)
    (hown : commonPrefixCount (pooled.context.sequenceTokens call.sequence) call.tokens = 0)
    (hother : commonPrefixCount (pooled.context.sequenceTokens call.sequence.other)
      call.tokens = 0) :
    pooled.sharedKept call = 0 := by
  have hplan : pooled.plan call = ⟨none, 0⟩ := by
    rw [plan, LlamaContext.sequencePlan, hown, hother]
    simp
  rw [sharedKept, hplan]
  exact Nat.min_zero _

def Answers.success : Answers := ⟨true, true, 0, 0, true⟩

def fullCall (token : Token) (sequence : LlamaSequence) : LogitsCall :=
  ⟨.success, List.replicate contextTokenLimit token, contextTokenLimit - 1, sequence⟩

theorem fullCall_length (token : Token) (sequence : LlamaSequence) :
    (fullCall token sequence).tokens.length = contextTokenLimit := List.length_replicate

theorem fullCall_passes (token : Token) (sequence : LlamaSequence) :
    (fullCall token sequence).passes 1 = true := by
  rw [LogitsCall.passes, fullCall_length]
  rfl

theorem commonPrefixCount_cons {first second : Token} (hne : first ≠ second)
    (left right : List Token) :
    commonPrefixCount (first :: left) (second :: right) = 0 := by
  simp [commonPrefixCount, hne]

/-- Beside a full record there is no room for a full call that begins otherwise. -/
theorem not_fits_full {pooled : PooledContext} (hsize : pooled.context.vocabularySize = 1)
    (hevaluation : pooled.context.sequenceTokens .evaluation = (fullCall 0 .evaluation).tokens)
    (hprediction : pooled.context.sequenceTokens .inputPrediction = []) :
    ¬pooled.Fits (fullCall 1 .inputPrediction) := by
  intro hfits
  have hother : commonPrefixCount (pooled.context.sequenceTokens .evaluation)
      (fullCall 1 .inputPrediction).tokens = 0 := by
    rw [hevaluation]
    exact commonPrefixCount_cons (by decide) _ _
  have hown : commonPrefixCount (pooled.context.sequenceTokens .inputPrediction)
      (fullCall 1 .inputPrediction).tokens = 0 := by
    rw [hprediction]
    rfl
  have hroom : (pooled.context.sequenceTokens .evaluation).length +
      (fullCall 1 .inputPrediction).tokens.length - pooled.sharedKept
        (fullCall 1 .inputPrediction) ≤
        contextTokenLimit := hfits (hsize ▸ fullCall_passes 1 .inputPrediction) rfl
  rw [pooled.sharedKept_of_nothing (fullCall 1 .inputPrediction) hown hother, hevaluation,
    fullCall_length, fullCall_length] at hroom
  exact absurd hroom (by decide)

/-- Two prompts of 512 tokens, one for each sequence: the second finds no space. -/
theorem space_runs_out : ¬∀ (vocabularySize : Nat) (calls : List LogitsCall),
    (∀ call ∈ calls, call.tokens.length ≤ contextTokenLimit) →
      ∀ before call after, calls = before ++ call :: after →
        ((PooledContext.load vocabularySize).run (fun _ => ()) before).lacksSpace call = false := by
  intro hall
  have hspace := hall 1 [fullCall 0 .evaluation, fullCall 1 .inputPrediction]
    (by simp [fullCall_length])
    [fullCall 0 .evaluation] _ [] rfl
  obtain ⟨hsize, hrecord⟩ :=
    PooledContext.record_of_fresh (fun _ => ()) (fullCall_passes 0 .evaluation) rfl rfl rfl
  have hcounted := PooledContext.run_counted (fun _ => ()) (PooledContext.load_counted 1)
    [fullCall 0 .evaluation]
  exact not_fits_full hsize (congrFun hrecord .evaluation) (congrFun hrecord .inputPrediction)
    ((hcounted.lacksSpace_iff (fullCall 1 .inputPrediction)).mp hspace)

end BeanKey.Llama
