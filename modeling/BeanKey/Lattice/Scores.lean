import BeanKey.Lattice.Candidate
import Mathlib.Tactic.Linarith
import Mathlib.Tactic.Ring

/-! The scores a prediction gives the entries before it, and those a candidate has for the
same entries. -/
namespace BeanKey.Lattice

/-- The loop of `score_entries`: the meanings of the clauses so far, the last one apart. -/
structure EntryScores where
  value : ℚ
  previousRight : Nat
  earlierMeanings : List Nat
  meaning : Nat

section
variable {unicode : UnicodeTable} (lookups : Lookups unicode) (meaningCost : Nat → Nat → ℚ)
  (context : ConversionContext)

namespace EntryScores

def start : EntryScores := ⟨0, context.rightId, [], context.meaningId⟩

def opened (scores : EntryScores) (index : Nat) (entry : DictionaryEntry) : EntryScores :=
  if 0 < index ∧ isClause scores.previousRight entry.leftId then
    { scores with
      earlierMeanings := scores.earlierMeanings ++ [scores.meaning]
      meaning := if includesMeaning entry then entry.meaningId else bosMeaningId }
  else scores

def extended (scores : EntryScores) (entry : DictionaryEntry) : EntryScores :=
  { scores with
    value := scores.value +
      (lookups.connectionCost scores.previousRight entry.leftId + entry.value)
    previousRight := entry.rightId
    meaning :=
      if scores.meaning = bosMeaningId ∧ entry.meaningId ≠ bosMeaningId ∨ includesMeaning entry then
        entry.meaningId
      else scores.meaning }

def add (scores : EntryScores) (index : Nat) (entry : DictionaryEntry) : EntryScores :=
  (scores.opened index entry).extended lookups entry

end EntryScores

def entryScores (entries : List DictionaryEntry) : EntryScores :=
  entries.zipIdx.foldl (fun scores (entry, index) => scores.add lookups index entry)
    (.start context)

def meaningSum : Nat → List Nat → ℚ
  | _, [] => 0
  | previous, meaning :: meanings => meaningCost previous meaning + meaningSum meaning meanings

def scoreEntries (entries : List DictionaryEntry) : ℚ × Nat × Nat :=
  if entries = [] then (0, context.rightId, context.meaningId)
  else
    let scores := entryScores lookups context entries
    (scores.value +
        meaningSum meaningCost context.meaningId (scores.earlierMeanings ++ [scores.meaning]),
      scores.previousRight, scores.meaning)

end

/-! ### The condition -/

/-- Some entry since the last clause began has a word; the last entry comes first. -/
def clauseHasText : List DictionaryEntry → Bool
  | [] => false
  | [entry] => entry.word ≠ []
  | entry :: last :: before =>
    entry.word ≠ [] || !isClause last.rightId entry.leftId && clauseHasText (last :: before)

/-- Each clause that another one follows has a word; the last entry comes first. -/
def clausesHaveText : List DictionaryEntry → Bool
  | entry :: last :: before =>
    (!isClause last.rightId entry.leftId || clauseHasText (last :: before)) &&
      clausesHaveText (last :: before)
  | _ => true

theorem clausesHaveText_of_words {entries : List DictionaryEntry}
    (h : ∀ entry ∈ entries, entry.word ≠ []) : clausesHaveText entries := by
  induction entries with
  | nil => rfl
  | cons entry before ih =>
    cases before with
    | nil => rfl
    | cons last before =>
      have hrest := ih fun other hin => h other (List.mem_cons_of_mem _ hin)
      have hlast : clauseHasText (last :: before) := by
        have hword := h last (by simp)
        cases before <;> simp [clauseHasText, hword]
      simp [clausesHaveText, hlast, hrest]

/-! ### The two loops side by side -/

section
variable {unicode : UnicodeTable} {lookups : Lookups unicode} {meaningCost : Nat → Nat → ℚ}
  {context : ConversionContext}

abbrev pathScores (lookups : Lookups unicode) (context : ConversionContext)
    (nodes : List LatticeNode) : EntryScores :=
  entryScores lookups context (nodes.reverse.map LatticeNode.entry)

theorem pathScores_cons (node : LatticeNode) (before : List LatticeNode) :
    pathScores lookups context (node :: before) =
      (pathScores lookups context before).add lookups before.length node.entry := by
  rw [pathScores, List.reverse_cons, List.map_append, entryScores, List.zipIdx_append,
    List.foldl_append]
  simp [entryScores]

theorem meaningValue_eq (sum : ℚ) (previous : Nat) (clauses : List Clause) :
    meaningValue meaningCost sum previous clauses =
      sum + meaningSum meaningCost previous (clauses.map Clause.meaningId) := by
  induction clauses generalizing sum previous with
  | nil => simp [meaningValue, meaningSum]
  | cons clause clauses ih =>
    rw [meaningValue, List.map_cons, meaningSum, ih, Rounding.rounded_exact, add_assoc]

@[simp] theorem EntryScores.opened_previousRight (scores : EntryScores) (index : Nat)
    (entry : DictionaryEntry) : (scores.opened index entry).previousRight =
    scores.previousRight := by
  rw [opened]
  split <;> rfl

@[simp] theorem EntryScores.opened_value (scores : EntryScores) (index : Nat)
    (entry : DictionaryEntry) : (scores.opened index entry).value = scores.value := by
  rw [opened]
  split <;> rfl

theorem pathScores_previousRight (node : LatticeNode) (before : List LatticeNode) :
    (pathScores lookups context (node :: before)).previousRight = node.entry.rightId := by
  rw [pathScores_cons]
  rfl

theorem clausesOf_previousRight (node : LatticeNode) (before : List LatticeNode) :
    (clausesOf lookups context (node :: before)).previousRight = node.entry.rightId := rfl

/-- The costs of the beginning that are counted once more at later nodes. -/
def laterHeads (lookups : Lookups unicode) (context : ConversionContext) : List LatticeNode → ℚ
  | node :: last :: before => headConnection lookups context node +
    laterHeads lookups context (last :: before)
  | _ => 0

theorem pathTotal_eq {nodes : List LatticeNode}
    (h : ∃ first, nodes.getLast? = some first ∧ first.range.startsAtZero = true) :
    pathTotal lookups context nodes =
      (pathScores lookups context nodes).value + laterHeads lookups context nodes := by
  induction nodes with
  | nil => simp at h
  | cons node before ih =>
    rw [pathScores_cons, EntryScores.add, EntryScores.extended]
    cases before with
    | nil =>
      obtain ⟨first, hfirst, hzero⟩ := h
      obtain rfl : node = first := by simpa using hfirst
      simp [pathTotal, headConnection, hzero, laterHeads, entryScores, EntryScores.start]
      ring
    | cons last before =>
      have hrest := ih (by simpa using h)
      rw [pathTotal, hrest, laterHeads, EntryScores.opened_previousRight, EntryScores.opened_value,
        pathScores_previousRight]
      simp only [Rounding.rounded_exact]
      ring

/-- The two loops have the same clauses. -/
structure Agree (clauses : Clauses) (scores : EntryScores) : Prop where
  earlier : clauses.earlier.map Clause.meaningId = scores.earlierMeanings
  last : clauses.last.meaningId = scores.meaning

theorem Agree.extended {clauses : Clauses} {scores : EntryScores} (h : Agree clauses scores)
    (entry : DictionaryEntry) (range : LatticeRange) (total : ℚ) :
    Agree (clauses.extended entry range total) (scores.extended lookups entry) where
  earlier := h.earlier
  last := by rw [Clauses.extended, EntryScores.extended, h.last]

theorem Agree.opened {clauses : Clauses} {scores : EntryScores} (h : Agree clauses scores)
    {index : Nat} {entry : DictionaryEntry}
    (hsame : (clauses.last.text = [] ∨ !isClause clauses.previousRight entry.leftId) ↔
      ¬(0 < index ∧ isClause scores.previousRight entry.leftId)) (total : ℚ) :
    Agree (clauses.opened entry total) (scores.opened index entry) := by
  rw [Clauses.opened, EntryScores.opened]
  by_cases hopens : 0 < index ∧ isClause scores.previousRight entry.leftId
  · rw [if_pos hopens, if_neg fun hin => hsame.mp hin hopens]
    refine ⟨?_, rfl⟩
    simp [Clauses.all, h.earlier, h.last]
  · rw [if_neg hopens, if_pos (hsame.mpr hopens)]
    exact h

/-- The open clause of a candidate has a text where some of its entries has a word. -/
theorem opened_text {clauses : Clauses} {entry : DictionaryEntry} {total : ℚ} :
    (clauses.opened entry total).last.text ≠ [] ↔
      isClause clauses.previousRight entry.leftId = false ∧ clauses.last.text ≠ [] := by
  rw [Clauses.opened]
  split
  · next hstays =>
    simp only [Bool.not_eq_true'] at hstays
    tauto
  · next hopens => simp_all

theorem clausesOf_text_ne_nil {node : LatticeNode} {before : List LatticeNode} :
    (clausesOf lookups context (node :: before)).last.text ≠ [] ↔
      node.entry.word ≠ [] ∨
        isClause (clausesOf lookups context before).previousRight node.entry.leftId = false ∧
          (clausesOf lookups context before).last.text ≠ [] := by
  rw [clausesOf, Clauses.add, Clauses.extended, ← opened_text]
  simp only [ne_eq, List.append_eq_nil_iff]
  tauto

theorem lastText_ne_nil (nodes : List LatticeNode) :
    (clausesOf lookups context nodes).last.text ≠ [] ↔
      clauseHasText (nodes.map LatticeNode.entry) := by
  induction nodes with
  | nil => simp [clausesOf, Clauses.start, clauseHasText]
  | cons node before ih =>
    rw [clausesOf_text_ne_nil, ih]
    cases before with
    | nil => simp [clauseHasText]
    | cons last before =>
      rw [clausesOf_previousRight]
      simp [clauseHasText]

/-- Where every clause has a word, both loops have the same clauses. -/
theorem agree_of_clausesHaveText {nodes : List LatticeNode}
    (h : clausesHaveText (nodes.map LatticeNode.entry)) :
    Agree (clausesOf lookups context nodes) (pathScores lookups context nodes) := by
  induction nodes with
  | nil => exact ⟨rfl, rfl⟩
  | cons node before ih =>
    rw [pathScores_cons]
    cases before with
    | nil => exact Agree.extended (Agree.opened ⟨rfl, rfl⟩
        (by simp [clausesOf, Clauses.start]) _) _ _ _
    | cons last before =>
      rw [List.map_cons, List.map_cons, clausesHaveText, Bool.and_eq_true] at h
      refine Agree.extended (Agree.opened (ih h.2) ?_ _) _ _ _
      have htext := @lastText_ne_nil _ lookups context (last :: before)
      rw [clausesOf_previousRight, pathScores_previousRight]
      have hopens := h.1
      rw [List.map_cons] at htext
      simp only [Bool.or_eq_true, Bool.not_eq_true'] at hopens
      cases hclause : isClause last.entry.rightId node.entry.leftId with
      | false => simp
      | true =>
        simp only [hclause, Bool.true_eq_false, false_or] at hopens
        simpa using htext.mpr hopens

theorem opened_length (clauses : Clauses) (entry : DictionaryEntry) (total : ℚ) :
    (clauses.opened entry total).earlier.length = clauses.earlier.length +
      if clauses.last.text ≠ [] ∧ isClause clauses.previousRight entry.leftId then 1 else 0 := by
  rw [Clauses.opened]
  by_cases hstays : clauses.last.text = [] ∨ !isClause clauses.previousRight entry.leftId
  · rw [if_pos hstays, if_neg (by simp only [Bool.not_eq_true'] at hstays; simp; tauto)]
    rfl
  · have hopens : clauses.last.text ≠ [] ∧ isClause clauses.previousRight entry.leftId := by
      simpa using hstays
    rw [if_neg hstays]
    simp [Clauses.all, hopens.1, hopens.2]

theorem EntryScores.opened_length (scores : EntryScores) (index : Nat) (entry : DictionaryEntry) :
    (scores.opened index entry).earlierMeanings.length = scores.earlierMeanings.length +
      if 0 < index ∧ isClause scores.previousRight entry.leftId then 1 else 0 := by
  rw [EntryScores.opened]
  split <;> simp

/-- A candidate never has more clauses, and fewer where a clause has no word. -/
theorem earlier_length (nodes : List LatticeNode) :
    (clausesOf lookups context nodes).earlier.length ≤
        (pathScores lookups context nodes).earlierMeanings.length ∧
      (clausesHaveText (nodes.map LatticeNode.entry) = false →
        (clausesOf lookups context nodes).earlier.length <
          (pathScores lookups context nodes).earlierMeanings.length) := by
  induction nodes with
  | nil => exact ⟨Nat.le_refl _, fun h => absurd h (by simp [clausesHaveText])⟩
  | cons node before ih =>
    cases before with
    | nil => exact ⟨Nat.zero_le _, fun h => absurd h (by simp [clausesHaveText])⟩
    | cons last before =>
      have htext := @lastText_ne_nil _ lookups context (last :: before)
      have hclauses : (clausesOf lookups context (node :: last :: before)).earlier.length =
          (clausesOf lookups context (last :: before)).earlier.length +
            if clauseHasText ((last :: before).map LatticeNode.entry) ∧
              isClause last.entry.rightId node.entry.leftId then 1 else 0 := by
        rw [clausesOf, Clauses.add, Clauses.extended, opened_length, clausesOf_previousRight]
        simp only [htext]
      have hscores : (pathScores lookups context (node :: last :: before)).earlierMeanings.length =
          (pathScores lookups context (last :: before)).earlierMeanings.length +
            if isClause last.entry.rightId node.entry.leftId then 1 else 0 := by
        rw [pathScores_cons, EntryScores.add, EntryScores.extended, EntryScores.opened_length,
          pathScores_previousRight]
        simp
      rw [hclauses, hscores]
      refine ⟨?_, fun hempty => ?_⟩
      · refine Nat.add_le_add ih.1 ?_
        split <;> simp_all
      · rw [List.map_cons, List.map_cons, clausesHaveText, Bool.and_eq_false_iff,
          ← List.map_cons] at hempty
        by_cases hbefore : clausesHaveText ((last :: before).map LatticeNode.entry) = false
        · refine Nat.add_lt_add_of_lt_of_le (ih.2 hbefore) ?_
          split <;> simp_all
        · have hopens := hempty.resolve_right hbefore
          simp only [Bool.or_eq_false_iff, Bool.not_eq_false'] at hopens
          rw [if_neg fun hin => Bool.false_ne_true (hopens.2.symm.trans hin.1), if_pos hopens.1]
          exact Nat.lt_succ_of_le ih.1

/-! ### Values -/

theorem makeCandidate_value {nodes : List LatticeNode} (hne : nodes ≠ []) (total : ℚ) :
    (makeCandidate lookups meaningCost context ⟨nodes, total⟩).value =
      pathTotal lookups context nodes + meaningSum meaningCost bosMeaningId
        ((clausesOf lookups context nodes).all.map Clause.meaningId) := by
  obtain ⟨node, before, rfl⟩ := List.exists_cons_of_ne_nil hne
  rw [makeCandidate, meaningValue_eq, zero_add]
  rfl

theorem scoreEntries_eq {nodes : List LatticeNode} (hne : nodes ≠ []) :
    scoreEntries lookups meaningCost context (nodes.reverse.map LatticeNode.entry) =
      ((pathScores lookups context nodes).value + meaningSum meaningCost context.meaningId
          ((pathScores lookups context nodes).earlierMeanings ++
            [(pathScores lookups context nodes).meaning]),
        (pathScores lookups context nodes).previousRight,
        (pathScores lookups context nodes).meaning) := by
  rw [scoreEntries, if_neg (by simpa using hne)]

theorem meaningSum_const (cost : ℚ) (previous : Nat) (meanings : List Nat) :
    meaningSum (fun _ _ => cost) previous meanings = cost * meanings.length := by
  induction meanings generalizing previous with
  | nil => simp [meaningSum]
  | cons meaning meanings ih =>
    rw [meaningSum, ih, List.length_cons]
    push_cast
    ring

theorem laterHeads_zero (h : lookups.connectionCost = fun _ _ => 0) (nodes : List LatticeNode) :
    laterHeads lookups context nodes = 0 := by
  induction nodes with
  | nil => rfl
  | cons node before ih =>
    cases before with
    | nil => rfl
    | cons last before => rw [laterHeads, ih, headConnection, h]; simp

theorem laterHeads_of_later {nodes : List LatticeNode}
    (h : ∀ node ∈ nodes.dropLast, node.range.startsAtZero = false) :
    laterHeads lookups context nodes = 0 := by
  induction nodes with
  | nil => rfl
  | cons node before ih =>
    cases before with
    | nil => rfl
    | cons last before =>
      rw [List.dropLast_cons_cons] at h
      rw [laterHeads, ih fun other hin => h other (List.mem_cons_of_mem _ hin), headConnection,
        h node List.mem_cons_self]
      simp

theorem laterHeads_one (h : lookups.connectionCost = fun _ _ => 1) (nodes : List LatticeNode) :
    laterHeads lookups context nodes =
      (nodes.dropLast.countP fun node => node.range.startsAtZero) := by
  induction nodes with
  | nil => rfl
  | cons node before ih =>
    cases before with
    | nil => rfl
    | cons last before =>
      rw [laterHeads, ih, headConnection, h, List.dropLast_cons_cons, List.countP_cons]
      split <;> simp [add_comm]

/-! ### Agreement -/

theorem LatticeNodes.IsPath.exists_first {lattice : LatticeNodes} {nodes : List LatticeNode}
    (h : lattice.IsPath nodes) :
    ∃ first, nodes.getLast? = some first ∧ first.range.startsAtZero = true := by
  induction h with
  | start _ hstart => exact ⟨_, rfl, hstart⟩
  | step _ _ _ ih => simpa using ih

/-- For every dictionary, `score_entries` gives the entries of a path the value and the last meaning
of the candidate of the path. -/
def ScoresAgree (unicode : UnicodeTable) (context : ConversionContext) (nodes : List LatticeNode) :
    Prop :=
  ∀ (lookups : Lookups unicode) (meaningCost : Nat → Nat → ℚ),
    (scoreEntries lookups meaningCost context (nodes.reverse.map LatticeNode.entry)).1 =
        (makeCandidate lookups meaningCost context
          ⟨nodes, pathTotal lookups context nodes⟩).value ∧
      (scoreEntries lookups meaningCost context (nodes.reverse.map LatticeNode.entry)).2.2 =
        (makeCandidate lookups meaningCost context
          ⟨nodes, pathTotal lookups context nodes⟩).lastMeaningId

/-- The two scores agree after a text that leaves no meaning, where no clause is without a word and
the beginning of the text is not passed again. -/
theorem scores_agree_iff {nodes : List LatticeNode}
    (hstart : ∃ first, nodes.getLast? = some first ∧ first.range.startsAtZero = true) :
    ScoresAgree unicode context nodes ↔ context.meaningId = bosMeaningId ∧
      (∀ node ∈ nodes.dropLast, node.range.startsAtZero = false) ∧
        clausesHaveText (nodes.map LatticeNode.entry) := by
  have hne : nodes ≠ [] := by
    rintro rfl
    simp at hstart
  constructor
  · intro hagree
    have hvalues : ∀ (lookups : Lookups unicode) (meaningCost : Nat → Nat → ℚ),
        meaningSum meaningCost context.meaningId
            ((pathScores lookups context nodes).earlierMeanings ++
              [(pathScores lookups context nodes).meaning]) =
          laterHeads lookups context nodes + meaningSum meaningCost bosMeaningId
            ((clausesOf lookups context nodes).all.map Clause.meaningId) := by
      intro lookups meaningCost
      have hvalue := (hagree lookups meaningCost).1
      rw [scoreEntries_eq hne, makeCandidate_value hne, pathTotal_eq hstart] at hvalue
      linarith
    have htext : clausesHaveText (nodes.map LatticeNode.entry) := by
      by_contra hempty
      have hcount := hvalues (.empty unicode) fun _ _ => 1
      rw [laterHeads_zero rfl, meaningSum_const, meaningSum_const] at hcount
      have hfewer := (@earlier_length _ (.empty unicode) context nodes).2 (by simpa using hempty)
      simp only [one_mul, zero_add, Nat.cast_inj, Clauses.all, List.length_append, List.length_map,
        List.length_singleton] at hcount
      omega
    have hlater : ∀ node ∈ nodes.dropLast, node.range.startsAtZero = false := by
      have hcount := hvalues { Lookups.empty unicode with connectionCost := fun _ _ => 1 }
        fun _ _ => 0
      rw [laterHeads_one rfl, meaningSum_const, meaningSum_const] at hcount
      have hnone : nodes.dropLast.countP (fun node => node.range.startsAtZero) = 0 := by
        simpa using hcount.symm
      intro node hin
      simpa using List.countP_eq_zero.mp hnone node hin
    refine ⟨?_, hlater, htext⟩
    have hsame := @agree_of_clausesHaveText _ (.empty unicode) context _ htext
    have hfirst := hvalues (.empty unicode) fun previous _ => if previous =
      bosMeaningId then 1 else 0
    rw [laterHeads_zero rfl, zero_add, Clauses.all, List.map_append, hsame.earlier,
      List.map_singleton,
      hsame.last] at hfirst
    obtain ⟨meaning, meanings, hmeanings⟩ := List.exists_cons_of_ne_nil
      (List.append_ne_nil_of_right_ne_nil
        (pathScores (.empty unicode) context nodes).earlierMeanings (List.cons_ne_nil
          (pathScores (.empty unicode) context nodes).meaning []))
    rw [hmeanings, meaningSum, meaningSum, if_pos rfl] at hfirst
    by_contra hne
    rw [if_neg hne] at hfirst
    linarith
  · rintro ⟨hcontext, hlater, htext⟩ lookups meaningCost
    have hsame := @agree_of_clausesHaveText _ lookups context _ htext
    rw [scoreEntries_eq hne, makeCandidate_value hne, pathTotal_eq hstart,
      laterHeads_of_later hlater, Clauses.all, List.map_append, hsame.earlier, List.map_singleton,
      hsame.last, hcontext]
    exact ⟨by ring, hsame.last.symm⟩

end

/-! ### After a text with a meaning -/

def firstWord : LatticeNode :=
  ⟨(.surface 0, 0), ⟨['か'], ['カ'], 1288, 1288, 501, -13, 0, {}⟩, .surface 0 1⟩

def secondWord : LatticeNode :=
  ⟨(.surface 1, 0), ⟨['な'], ['ナ'], 1288, 1288, 501, -13, 0, {}⟩, .surface 1 2⟩

/-- A path over two clauses scores alike. -/
theorem scores_agree_pair : ∃ lattice,
    buildLattice (.empty .kana) .identity Input.endingTables {} pairText = some lattice ∧
      lattice.IsPath [secondWord, firstWord] ∧
      ScoresAgree .kana {} [secondWord, firstWord] := by
  have hcount : (katakanaGraphemes .kana pairText).length = pairText.surface.length := by
    decide +kernel
  obtain ⟨lattice, hbuild, -⟩ : ∃ lattice,
      buildLattice (.empty .kana) .identity Input.endingTables {} pairText = some lattice ∧
        LatticeWithin pairText lattice := buildLattice_within hcount
  have hpath : lattice.IsPath [secondWord, firstWord] :=
    .step (has_of_column hbuild 1 (by decide +kernel) (by decide +kernel)) rfl
      (.start (has_of_column hbuild 0 (by decide +kernel) (by decide +kernel)) rfl)
  exact ⟨lattice, hbuild, hpath,
    (scores_agree_iff hpath.exists_first).mpr
      ⟨rfl, by decide, clausesHaveText_of_words (by decide)⟩⟩

/-- After a word of the meaning 501, the first costs of a meaning are counted from this one in the
one score, from the beginning of a sentence in the other. -/
theorem scores_disagree : ¬∀ (context : ConversionContext) (nodes : List LatticeNode),
    (∃ first, nodes.getLast? = some first ∧ first.range.startsAtZero = true) →
      ScoresAgree .kana context nodes := by
  intro hagree
  have hvalue := (hagree { rightId := 1288, meaningId := 501 } [firstWord] ⟨firstWord, rfl, rfl⟩
    (.empty .kana) fun previous _ => if previous = bosMeaningId then -1 else 0).1
  exact absurd hvalue (by decide +kernel)

end BeanKey.Lattice
