import BeanKey.Lattice.Path
import BeanKey.Library.Keyed

/-! Candidates of the paths that a conversion keeps, and their first clauses. -/
namespace BeanKey.Lattice
open Input Rounding

def bosClassId : Nat := 0
def bosMeaningId : Nat := 500

def wordType (classId : Nat) : Nat :=
  if classId = 0 ∨ classId = 1316 then 3
  else if classId ∈ [1315, 6, 557, 558, 559, 560] then 0
  else if 561 ≤ classId ∧ classId < 868 ∨ 1283 ≤ classId ∧ classId < 1297 ∨
      1306 ≤ classId ∧ classId < 1310 ∨ 11 ≤ classId ∧ classId < 53 ∨
      555 ≤ classId ∧ classId < 557 ∨ 1281 ≤ classId ∧ classId < 1283 ∨
      classId ∈ [1314, 3, 2, 4, 5, 1, 9] then 1
  else 2

def isClause (former latter : Nat) : Bool :=
  let latterType := wordType latter
  if latterType = 3 then false
  else
    let formerType := wordType former
    if formerType = 3 then false
    else (latterType = 0 || latterType = 1) && formerType ≠ 0

def includesMeaning (entry : DictionaryEntry) : Bool :=
  let within (id : Nat) : Bool := (895 ≤ id && id ≤ 1280) || (1297 ≤ id && id ≤ 1305)
  within entry.leftId || within entry.rightId || wordType entry.leftId = 1 ||
    wordType entry.rightId = 1

structure Clause where
  text : Text
  value : ℚ
  meaningId : Nat
  ranges : List LatticeRange
  entryEnd : Nat
  deriving DecidableEq

structure Candidate where
  text : Text
  value : ℚ
  composingCount : ComposingCount
  lastMeaningId : Nat
  entries : List DictionaryEntry
  rubyCount : Nat
  isLearningTarget : Bool
  isTypoCorrection : Bool
  firstClause : Option Clause
  deriving DecidableEq

def combineCounts : ComposingCount → ComposingCount → ComposingCount
  | .input left, .input right => .input (left + right)
  | .surface left, .surface right => .surface (left + right)
  | left, right => .composite left right

def countOf (ranges : List LatticeRange) : ComposingCount :=
  match ranges.map LatticeRange.count with
  | [] => .input 0
  | first :: rest => rest.foldl combineCounts first

structure Clauses where
  earlier : List Clause
  last : Clause
  entries : List DictionaryEntry
  previousRight : Nat

namespace Clauses

def start (meaningId : Nat) : Clauses :=
  { earlier := []
    last := { text := [], value := 0, meaningId, ranges := [], entryEnd := 0 }
    entries := []
    previousRight := bosClassId }

def all (clauses : Clauses) : List Clause := clauses.earlier ++ [clauses.last]

def opened (clauses : Clauses) (entry : DictionaryEntry) (total : ℚ) : Clauses :=
  if clauses.last.text = [] ∨ !isClause clauses.previousRight entry.leftId then clauses
  else
    { clauses with
      earlier := clauses.all
      last :=
        { text := []
          value := total
          meaningId := if includesMeaning entry then entry.meaningId else bosMeaningId
          ranges := []
          entryEnd := clauses.entries.length } }

/-- Adds an entry to the last clause; `total` is that of the path up to it. -/
def extended (clauses : Clauses) (entry : DictionaryEntry) (range : LatticeRange) (total : ℚ) :
    Clauses :=
  let last := clauses.last
  { clauses with
    last :=
      { text := last.text ++ entry.word
        value := total
        meaningId :=
          if last.meaningId = bosMeaningId ∧ entry.meaningId ≠ bosMeaningId ∨
              includesMeaning entry then entry.meaningId
          else last.meaningId
        ranges := last.ranges ++ [range]
        entryEnd := clauses.entries.length }
    entries := clauses.entries ++ [entry]
    previousRight := entry.rightId }

def add (clauses : Clauses) (entry : DictionaryEntry) (range : LatticeRange) (total : ℚ) :
    Clauses :=
  (clauses.opened entry total).extended entry range total

end Clauses

section
variable [Rounding] {unicode : UnicodeTable} (lookups : Lookups unicode)
  (meaningCost : Nat → Nat → ℚ) (context : ConversionContext)

def clausesOf : List LatticeNode → Clauses
  | [] => .start context.meaningId
  | node :: before =>
    (clausesOf before).add node.entry node.range (pathTotal lookups context (node :: before))

/-- Adds the costs between the meanings of the clauses that follow each other to a sum. -/
def meaningValue : ℚ → Nat → List Clause → ℚ
  | sum, _, [] => sum
  | sum, previous, clause :: clauses =>
    meaningValue (rounded (sum + meaningCost previous clause.meaningId)) clause.meaningId clauses

def rubyCountOf (unicode : UnicodeTable) (entries : List DictionaryEntry) : Nat :=
  (entries.map fun entry => (graphemes unicode entry.ruby).length).sum

def makeCandidate (path : RegisteredPath) : Candidate :=
  let clauses := clausesOf lookups context path.nodes
  { text := clauses.all.flatMap Clause.text
    value := rounded (clauses.last.value + meaningValue meaningCost 0 bosMeaningId clauses.all)
    composingCount := countOf (clauses.all.flatMap Clause.ranges)
    lastMeaningId := clauses.last.meaningId
    entries := clauses.entries
    rubyCount := rubyCountOf unicode clauses.entries
    isLearningTarget := true
    isTypoCorrection := path.nodes.any fun node =>
      match node.range with
      | .input _ _ => true
      | .surface _ _ => false
    firstClause := clauses.all.head? }

def Candidate.firstClauseCandidate (unicode : UnicodeTable) (candidate : Candidate) :
    Option Candidate :=
  candidate.firstClause.bind fun first =>
    if first.entryEnd + 1 = candidate.entries.length then none
    else
      let entries := candidate.entries.take (first.entryEnd + 1)
      some
        { text := first.text
          value := first.value
          composingCount := countOf first.ranges
          lastMeaningId := first.meaningId
          entries
          rubyCount := rubyCountOf unicode entries
          isLearningTarget := candidate.isLearningTarget
          isTypoCorrection := candidate.isTypoCorrection
          firstClause := none }

def sortByValue (candidates : List Candidate) : List Candidate :=
  candidates.mergeSort fun left right => right.value ≤ left.value

def insertUnique (output : List Candidate) (candidate : Candidate) : List Candidate :=
  match output.findIdx? fun existing => existing.text = candidate.text with
  | none => output ++ [candidate]
  | some index =>
    output.modify index fun existing =>
      if existing.value < candidate.value ∨ existing.rubyCount < candidate.rubyCount then candidate
      else existing

def uniqueCandidates (candidates : List Candidate) : List Candidate :=
  sortByValue ((candidates.filter fun candidate => candidate.text ≠ []).foldl insertUnique [])

def convert (nBest : Nat) (order : HashOrder) (tables : InputTableRegistry)
    (modifiers : ConversionModifiers) (composing : ComposingText) : Option (List Candidate) :=
  (latticeResults lookups context nBest order tables modifiers composing).map fun results =>
    uniqueCandidates (sortByValue (results.map (makeCandidate lookups meaningCost context)))

end

/-! ### Texts and entries -/

section
variable {unicode : UnicodeTable} {lookups : Lookups unicode} {meaningCost : Nat → Nat → ℚ}
  {context : ConversionContext}

@[simp] theorem Clauses.opened_entries (clauses : Clauses) (entry : DictionaryEntry) (total : ℚ) :
    (clauses.opened entry total).entries = clauses.entries := by
  unfold opened
  split <;> rfl

theorem Clauses.add_text (clauses : Clauses) (entry : DictionaryEntry) (range : LatticeRange)
    (total : ℚ) :
    (clauses.add entry range total).all.flatMap Clause.text =
      clauses.all.flatMap Clause.text ++ entry.word := by
  unfold add opened extended all
  split <;> simp

theorem clausesOf_entries [Rounding] (nodes : List LatticeNode) :
    (clausesOf lookups context nodes).entries = nodes.reverse.map LatticeNode.entry := by
  induction nodes with
  | nil => rfl
  | cons node before ih =>
    have hadd : (clausesOf lookups context (node :: before)).entries =
        (clausesOf lookups context before).entries ++ [node.entry] := by
      simp [clausesOf, Clauses.add, Clauses.extended]
    rw [hadd, ih, List.reverse_cons, List.map_append]
    rfl

theorem clausesOf_text [Rounding] (nodes : List LatticeNode) :
    (clausesOf lookups context nodes).all.flatMap Clause.text =
      nodes.reverse.flatMap fun node => node.entry.word := by
  induction nodes with
  | nil => rfl
  | cons node before ih =>
    rw [clausesOf, Clauses.add_text, ih, List.reverse_cons, List.flatMap_append]
    simp

theorem Clauses.add_ranges (clauses : Clauses) (entry : DictionaryEntry) (range : LatticeRange)
    (total : ℚ) :
    (clauses.add entry range total).all.flatMap Clause.ranges =
      clauses.all.flatMap Clause.ranges ++ [range] := by
  unfold add opened extended all
  split <;> simp

theorem clausesOf_ranges [Rounding] (nodes : List LatticeNode) :
    (clausesOf lookups context nodes).all.flatMap Clause.ranges =
      nodes.reverse.map LatticeNode.range := by
  induction nodes with
  | nil => rfl
  | cons node before ih =>
    rw [clausesOf, Clauses.add_ranges, ih, List.reverse_cons, List.map_append]
    rfl

theorem clausesOf_first [Rounding] (node : LatticeNode) (before : List LatticeNode) :
    ∃ first, (clausesOf lookups context (node :: before)).all.head? = some first ∧
      first.ranges.length = first.entryEnd + 1 := by
  induction before generalizing node with
  | nil => exact ⟨_, rfl, rfl⟩
  | cons last before ih =>
    obtain ⟨first, hfirst, hlength⟩ := ih last
    have hentries : (clausesOf lookups context (last :: before)).entries.length =
        (last :: before).length := by rw [clausesOf_entries]; simp
    have hranges : ((clausesOf lookups context (last :: before)).all.flatMap
        Clause.ranges).length = ((last :: before).reverse.map LatticeNode.range).length :=
      congrArg List.length (clausesOf_ranges (last :: before))
    rw [clausesOf]
    generalize clausesOf lookups context (last :: before) = clauses at *
    obtain ⟨earlier, open', entries, previousRight⟩ := clauses
    cases earlier with
    | cons clause earlier =>
      refine ⟨first, ?_, hlength⟩
      unfold Clauses.add Clauses.opened Clauses.extended Clauses.all at *
      split
      · exact hfirst
      · exact hfirst
    | nil =>
      unfold Clauses.add Clauses.opened Clauses.extended Clauses.all at *
      split
      · refine ⟨_, rfl, ?_⟩
        simpa [hentries] using hranges
      · exact ⟨first, hfirst, hlength⟩

theorem makeCandidate_entries [Rounding] (path : RegisteredPath) :
    (makeCandidate lookups meaningCost context path).entries =
      path.nodes.reverse.map LatticeNode.entry :=
  clausesOf_entries path.nodes

theorem makeCandidate_text [Rounding] (path : RegisteredPath) :
    (makeCandidate lookups meaningCost context path).text =
      path.nodes.reverse.flatMap fun node => node.entry.word :=
  clausesOf_text path.nodes

/-- The text of a candidate is what the constraint was held against. -/
theorem utf8_makeCandidate [Rounding] (path : RegisteredPath) :
    utf8 (makeCandidate lookups meaningCost context path).text = pathBytes path.nodes := by
  rw [makeCandidate_text, pathBytes, utf8, List.flatMap_assoc]
  rfl

theorem countOf_concat {ranges : List LatticeRange} (hne : ranges ≠ []) (range : LatticeRange) :
    countOf (ranges ++ [range]) = combineCounts (countOf ranges) range.count := by
  obtain ⟨first, rest, rfl⟩ := List.exists_cons_of_ne_nil hne
  simp [countOf]

theorem makeCandidate_count [Rounding] (path : RegisteredPath) :
    (makeCandidate lookups meaningCost context path).composingCount =
      countOf (path.nodes.reverse.map LatticeNode.range) :=
  congrArg countOf (clausesOf_ranges path.nodes)

theorem firstClauseCandidate_spec [Rounding] {path : RegisteredPath} (hne : path.nodes ≠ [])
    {first : Candidate}
    (h : (makeCandidate lookups meaningCost context path).firstClauseCandidate unicode =
      some first) :
    ∃ after before, path.nodes = after ++ before ∧ before ≠ [] ∧
      first.entries = before.reverse.map LatticeNode.entry ∧
      first.composingCount = countOf (before.reverse.map LatticeNode.range) := by
  obtain ⟨node, rest, hnodes⟩ := List.exists_cons_of_ne_nil hne
  obtain ⟨clause, hclause, hlength⟩ : ∃ clause,
      (clausesOf lookups context (node :: rest)).all.head? = some clause ∧
        clause.ranges.length = clause.entryEnd + 1 := clausesOf_first node rest
  rw [← hnodes] at hclause
  obtain ⟨clauses, hall⟩ := List.head?_eq_some_iff.mp hclause
  have hranges : clause.ranges ++ clauses.flatMap Clause.ranges =
      path.nodes.reverse.map LatticeNode.range := by
    rw [← clausesOf_ranges path.nodes, hall, List.flatMap_cons]
  have htake : (path.nodes.reverse.take (clause.entryEnd + 1)).map LatticeNode.range =
      clause.ranges := by
    rw [List.map_take, ← hranges, ← hlength, List.take_left]
  rw [Candidate.firstClauseCandidate, show (makeCandidate lookups meaningCost context
    path).firstClause = some clause from hclause, Option.bind_some] at h
  split at h
  · exact absurd h (by simp)
  · obtain rfl := Option.some.inj h
    refine ⟨path.nodes.take (path.nodes.length - (clause.entryEnd + 1)),
      path.nodes.drop (path.nodes.length - (clause.entryEnd + 1)),
      (List.take_append_drop _ _).symm, ?_, ?_, ?_⟩
    · intro hnil
      have hlen := congrArg List.length htake
      rw [List.take_reverse, hnil, hlength] at hlen
      simp at hlen
    · rw [← List.take_reverse, List.map_take]
      exact congrArg (List.take _) (makeCandidate_entries path)
    · rw [← List.take_reverse, htake]

/-! ### Unique candidates -/

/-- The old candidate gives way to one that is better or longer. -/
def GivesWay (existing candidate : Candidate) : Prop :=
  existing.value < candidate.value ∨ existing.rubyCount < candidate.rubyCount

instance : DecidableRel GivesWay := fun existing candidate =>
  inferInstanceAs (Decidable
    (existing.value < candidate.value ∨ existing.rubyCount < candidate.rubyCount))

theorem insertUnique_eq : insertUnique = Keyed.insert Candidate.text GivesWay := rfl

theorem mem_foldl_insertUnique {candidates output : List Candidate} {kept : Candidate}
    (h : kept ∈ candidates.foldl insertUnique output) : kept ∈ output ∨ kept ∈ candidates := by
  rw [insertUnique_eq] at h
  exact Keyed.mem_foldl_insert Candidate.text GivesWay h

theorem text_mem_foldl_insertUnique {candidates output : List Candidate} {text : Text}
    (h : text ∈ output.map Candidate.text ∨ text ∈ candidates.map Candidate.text) :
    text ∈ (candidates.foldl insertUnique output).map Candidate.text := by
  rw [insertUnique_eq]
  exact Keyed.key_mem_foldl_insert Candidate.text GivesWay h

theorem mem_sortByValue {candidates : List Candidate} {candidate : Candidate} :
    candidate ∈ sortByValue candidates ↔ candidate ∈ candidates :=
  (List.mergeSort_perm _ _).mem_iff

theorem mem_convert [Rounding] {nBest : Nat} {order : HashOrder} {tables : InputTableRegistry}
    {modifiers : ConversionModifiers} {composing : ComposingText} {candidates : List Candidate}
    (h : convert lookups meaningCost context nBest order tables modifiers composing =
      some candidates) {candidate : Candidate} (hin : candidate ∈ candidates) :
    candidate.text ≠ [] ∧ ∃ results path,
      latticeResults lookups context nBest order tables modifiers composing = some results ∧
        path ∈ results ∧ candidate = makeCandidate lookups meaningCost context path := by
  obtain ⟨results, hresults, rfl⟩ := Option.map_eq_some_iff.mp h
  rw [uniqueCandidates, mem_sortByValue] at hin
  have hkept := (mem_foldl_insertUnique hin).resolve_left List.not_mem_nil
  obtain ⟨hmade, htext⟩ := List.mem_filter.mp hkept
  rw [mem_sortByValue] at hmade
  obtain ⟨path, hpath, rfl⟩ := List.mem_map.mp hmade
  exact ⟨of_decide_eq_true htext, results, path, hresults, hpath, rfl⟩

theorem exists_convert [Rounding] {nBest : Nat} {order : HashOrder} {tables : InputTableRegistry}
    {modifiers : ConversionModifiers} {composing : ComposingText} {candidates : List Candidate}
    {results : List RegisteredPath}
    (h : convert lookups meaningCost context nBest order tables modifiers composing =
      some candidates)
    (hresults : latticeResults lookups context nBest order tables modifiers composing =
      some results) {path : RegisteredPath} (hpath : path ∈ results)
    (htext : (makeCandidate lookups meaningCost context path).text ≠ []) :
    ∃ candidate ∈ candidates,
      candidate.text = (makeCandidate lookups meaningCost context path).text := by
  rw [convert, hresults, Option.map_some, Option.some.injEq] at h
  subst h
  have hmem : (makeCandidate lookups meaningCost context path).text ∈
      ((sortByValue (results.map (makeCandidate lookups meaningCost context))).filter
        fun candidate => candidate.text ≠ []).map Candidate.text := by
    refine List.mem_map.mpr ⟨_, List.mem_filter.mpr ⟨?_, decide_eq_true htext⟩, rfl⟩
    exact mem_sortByValue.mpr (List.mem_map.mpr ⟨path, hpath, rfl⟩)
  obtain ⟨candidate, hin, heq⟩ := List.mem_map.mp (text_mem_foldl_insertUnique (.inr hmem))
  exact ⟨candidate, mem_sortByValue.mpr hin, heq⟩

end

end BeanKey.Lattice
