import BeanKey.Input.Custom
import Mathlib.Data.List.Forall2
import Mathlib.Data.List.TakeWhile

/-! What the check of a custom table text promises about the table that is loaded from it. -/
namespace BeanKey.Input

/-! ### A list of rules -/

/-- Rules of different keys are all kept, in their order. -/
theorem InputTable.new_mappings {entries : List Mapping} (h : (entries.map Mapping.key).Nodup) :
    (InputTable.new entries).mappings = entries := by
  induction entries using List.reverseRecOn with
  | nil => rfl
  | append_singleton entries entry ih =>
    rw [List.map_append, List.map_singleton, ← List.concat_eq_append, List.nodup_concat] at h
    have hrest : entries.foldl insertMapping [] = entries := ih h.2
    change (entries ++ [entry]).foldl insertMapping [] = _
    rw [List.foldl_append, hrest, List.foldl_cons, List.foldl_nil, insertMapping, if_neg h.1]

/-! ### Lines with one tab -/

def beforeTab (line : Text) : Text := line.takeWhile (· ≠ '\t')

def afterTab (line : Text) : Text := (line.dropWhile (· ≠ '\t')).tail

theorem ne_tab {key : Text} (h : '\t' ∉ key) :
    ∀ character ∈ key, decide (character ≠ '\t') = true := by
  intro character hin
  rw [decide_eq_true_eq]
  rintro rfl
  exact h hin

theorem beforeTab_append {key : Text} (h : '\t' ∉ key) (value : Text) :
    beforeTab (key ++ '\t' :: value) = key := by
  rw [beforeTab, List.takeWhile_append_of_pos (ne_tab h)]
  simp

theorem afterTab_append {key : Text} (h : '\t' ∉ key) (value : Text) :
    afterTab (key ++ '\t' :: value) = value := by
  rw [afterTab, List.dropWhile_append_of_pos (ne_tab h)]
  simp

theorem exists_columns {line : Text} (h : line.count '\t' = 1) :
    ∃ key value, line = key ++ '\t' :: value ∧ '\t' ∉ key ∧ '\t' ∉ value := by
  obtain ⟨key, value, rfl, hkey⟩ := List.eq_append_cons_of_mem
    (show '\t' ∈ line from List.count_pos_iff.mp (by omega))
  rw [List.count_append, List.count_cons_self, List.count_eq_zero_of_not_mem hkey] at h
  exact ⟨key, value, rfl, hkey, List.count_eq_zero.mp (by omega)⟩

/-- No column of the line is empty: it neither begins nor ends with its tab. -/
def ColumnsFilled (line : Text) : Prop := line.head? ≠ some '\t' ∧ line.getLast? ≠ some '\t'

instance (line : Text) : Decidable (ColumnsFilled line) := inferInstanceAs (Decidable (_ ∧ _))

theorem columnsFilled_iff {key value : Text} (hkey : '\t' ∉ key) (hvalue : '\t' ∉ value) :
    ColumnsFilled (key ++ '\t' :: value) ↔ key ≠ [] ∧ value ≠ [] := by
  rw [ColumnsFilled]
  refine and_congr (not_congr ?_) (not_congr ?_)
  · cases key with
    | nil => simp
    | cons character rest =>
      have hne : character ≠ '\t' := fun heq => hkey (heq ▸ List.mem_cons_self)
      simp [hne]
  · cases value using List.reverseRecOn with
    | nil => simp
    | append_singleton rest character =>
      have hne : character ≠ '\t' := fun heq => hvalue (heq ▸ by simp)
      have hlast : (key ++ '\t' :: (rest ++ [character])).getLast? = some character := by
        rw [List.getLast?_append, List.getLast?_cons]
        simp
      rw [hlast]
      simpa using hne

/-- The line's text before its tab as a key, and that after it as a value. -/
def wholeRule (unicode : UnicodeTable) (line : Text) : Mapping :=
  ⟨parseKey unicode (beforeTab line), parseValue unicode (afterTab line)⟩

theorem splitOn_tab {key value : Text} (hkey : '\t' ∉ key) (hvalue : '\t' ∉ value) :
    (key ++ '\t' :: value).splitOn '\t' = [key, value] := by
  rw [List.splitOn_append_cons_self_of_not_mem hkey, List.splitOn_eq_singleton hvalue]

theorem lineRule_eq {unicode : UnicodeTable} {line : Text} (hblank : isBlank line = false)
    (h : line.count '\t' = 1) :
    lineRule unicode line = if ColumnsFilled line then some (wholeRule unicode line) else none := by
  obtain ⟨key, value, rfl, hkey, hvalue⟩ := exists_columns h
  rw [lineRule, hblank, splitOn_tab hkey hvalue, wholeRule, beforeTab_append hkey,
    afterTab_append hkey]
  simp only [columnsFilled_iff hkey hvalue]
  by_cases hkeyNil : key = [] <;> by_cases hvalueNil : value = [] <;> simp [hkeyNil, hvalueNil]

/-! ### A check without errors -/

theorem scanTokensFrom_errors (side : FormatSide) (line fuel : Nat) (remaining : Text)
    (errors : List FormatError) (notAtTail : Option Text) :
    errors <+: (scanTokensFrom side line fuel remaining errors notAtTail).1 := by
  induction fuel generalizing remaining errors notAtTail with
  | zero => exact List.prefix_rfl
  | succ fuel ih =>
    rw [scanTokensFrom]
    split
    · exact List.prefix_rfl
    · split
      · exact List.prefix_append _ _
      · dsimp only
        split
        · exact (List.prefix_append _ _).trans (ih _ _ _)
        · refine List.IsPrefix.trans ?_ (ih _ _ _)
          split
          · exact List.prefix_rfl
          · exact List.prefix_append _ _

def CheckState.keys (state : CheckState) : List (List KeyElement) := state.firstSeen.map Prod.fst

theorem checkRule_spec {unicode : UnicodeTable} {state : CheckState} {line : Nat} {key value : Text}
    (h : (checkRule unicode state line key value).errors = []) :
    state.errors = [] ∧ parseKey unicode key ∉ state.keys ∧
      (checkRule unicode state line key value).keys = state.keys ++ [parseKey unicode key] := by
  have hkey := scanTokensFrom_errors .key line key.length key state.errors none
  have hvalue := scanTokensFrom_errors .value line value.length value
    (scanTokens key .key line state.errors).1 none
  rw [checkRule] at h ⊢
  cases hfound : state.firstSeen.find? fun seen => seen.1 = parseKey unicode key with
  | some pair =>
    simp only [hfound] at h
    simp at h
  | none =>
    simp only [hfound] at h ⊢
    have hscanned : (scanTokens value .value line (scanTokens key .key line state.errors).1).1 =
        [] := by
      split at h
      · simp at h
      · exact h
    refine ⟨?_, ?_, ?_⟩
    · exact List.prefix_nil.mp (hscanned ▸ hkey.trans hvalue)
    · intro hin
      obtain ⟨pair, hpair, heq⟩ := List.mem_map.mp hin
      exact absurd (List.find?_eq_none.mp hfound pair hpair) (by simpa using heq)
    · simp [CheckState.keys]

/-- A line that adds no error is blank, or has one tab and a new key. -/
theorem checkLine_spec {unicode : UnicodeTable} {state : CheckState} {line : Nat} {content : Text}
    (h : (checkLine unicode state line content).errors = []) :
    state.errors = [] ∧ if isBlank content then checkLine unicode state line content = state
      else content.count '\t' = 1 ∧ parseKey unicode (beforeTab content) ∉ state.keys ∧
        (checkLine unicode state line content).keys =
          state.keys ++ [parseKey unicode (beforeTab content)] := by
  rw [checkLine] at h ⊢
  cases hblank : isBlank content with
  | true => simpa [hblank] using h
  | false =>
    simp only [hblank, Bool.false_eq_true, if_false] at h ⊢
    by_cases hcount : content.count '\t' = 1
    · have hin : '\t' ∈ content := List.count_pos_iff.mp (by omega)
      simp only [hcount, ne_eq, not_true_eq_false, if_false, splitOnce, if_pos hin] at h ⊢
      obtain ⟨herrors, hnew, hkeys⟩ := checkRule_spec h
      exact ⟨herrors, trivial, hnew, hkeys⟩
    · exfalso
      simp only [ne_eq, hcount, not_false_eq_true, if_true] at h
      cases honce : splitOnce content with
      | none => simp [honce] at h
      | some columns =>
        rw [honce] at h
        exact absurd (checkRule_spec h).1 (by simp)

/-- Where a run over lines has no error, each line that is not blank has one tab and a key of its
own. -/
theorem foldl_checkLine {unicode : UnicodeTable} (pieces : List (Text × Nat))
    (h : (pieces.foldl (fun state (line, index) => checkLine unicode state index line) {}).errors =
      []) :
    (∀ piece ∈ (pieces.map Prod.fst).filter (!isBlank ·), piece.count '\t' = 1) ∧
      (pieces.foldl (fun state (line, index) => checkLine unicode state index line) {}).keys =
        ((pieces.map Prod.fst).filter (!isBlank ·)).map (fun piece =>
          parseKey unicode (beforeTab piece)) ∧
      (((pieces.map Prod.fst).filter (!isBlank ·)).map fun piece =>
        parseKey unicode (beforeTab piece)).Nodup := by
  induction pieces using List.reverseRecOn with
  | nil => exact ⟨by simp, rfl, List.nodup_nil⟩
  | append_singleton pieces piece ih =>
    obtain ⟨content, line⟩ := piece
    rw [List.foldl_append, List.foldl_cons, List.foldl_nil] at h ⊢
    obtain ⟨herrors, hline⟩ := checkLine_spec h
    obtain ⟨hcounts, hkeys, hnodup⟩ := ih herrors
    rw [List.map_append, List.filter_append, List.map_append, List.map_singleton]
    cases hblank : isBlank content with
    | true =>
      rw [hblank, if_pos rfl] at hline
      dsimp only at hline ⊢
      rw [hline]
      have hnone : [content].filter (!isBlank ·) = [] := by simp [hblank]
      rw [hnone, List.append_nil, List.map_nil, List.append_nil]
      exact ⟨hcounts, hkeys, hnodup⟩
    | false =>
      rw [hblank, if_neg (by simp)] at hline
      obtain ⟨hcount, hnew, hnext⟩ := hline
      have hsome : [content].filter (!isBlank ·) = [content] := by simp [hblank]
      rw [hsome, List.map_singleton]
      refine ⟨?_, by rw [hnext, hkeys], ?_⟩
      · intro other hin
        cases List.mem_append.mp hin with
        | inl hold => exact hcounts other hold
        | inr hlast => rwa [List.mem_singleton.mp hlast]
      · rw [← List.concat_eq_append, List.nodup_concat]
        exact ⟨hkeys ▸ hnew, hnodup⟩

/-! ### The lines of the check and those of the loader -/

theorem isBlank_return (line : Text) : isBlank (line ++ ['\r']) = isBlank line := by
  have hreturn : isWhitespace '\r' = true := by decide
  rw [isBlank, List.all_append, isBlank]
  simp [hreturn]

theorem eq_or_eq_stripReturn (line : Text) :
    line = stripReturn line ∨ line = stripReturn line ++ ['\r'] := by
  rw [stripReturn]
  split
  · next hlast =>
    refine .inr ?_
    obtain ⟨rest, rfl⟩ := List.getLast?_eq_some_iff.mp hlast
    simp
  · exact .inl rfl

/-- The lines that are not blank are those between line feeds, some without a carriage return. -/
theorem endedLines_related (pieces : List Text) :
    List.Forall₂ (fun line piece => piece = line ∨ piece = line ++ ['\r'])
      ((endedLines pieces).filter (!isBlank ·)) (pieces.filter (!isBlank ·)) := by
  induction pieces with
  | nil => exact .nil
  | cons piece rest ih =>
    cases rest with
    | nil =>
      rw [endedLines]
      split
      · next hempty =>
        subst hempty
        simp [isBlank]
      · cases hblank : isBlank piece <;> simp [hblank]
    | cons next rest =>
      have hblank : isBlank (stripReturn piece) = isBlank piece := by
        rcases eq_or_eq_stripReturn piece with heq | heq
        · rw [← heq]
        · conv_rhs => rw [heq, isBlank_return]
      rw [endedLines]
      · cases hpiece : isBlank piece with
        | true => simpa [hblank, hpiece] using ih
        | false =>
          rw [List.filter_cons_of_pos (by simp [hblank, hpiece]),
            List.filter_cons_of_pos (by simp [hpiece])]
          exact .cons (eq_or_eq_stripReturn piece) ih
      · simp

theorem count_tab_of_related {line piece : Text} (h : piece = line ∨ piece = line ++ ['\r']) :
    piece.count '\t' = line.count '\t' := by
  rcases h with rfl | rfl
  · rfl
  · rw [List.count_append]
    rfl

theorem beforeTab_of_related {line piece : Text} (h : piece = line ∨ piece = line ++ ['\r'])
    (hcount : line.count '\t' = 1) : beforeTab piece = beforeTab line := by
  rcases h with rfl | rfl
  · rfl
  · obtain ⟨key, value, rfl, hkey, -⟩ := exists_columns hcount
    rw [List.append_assoc, List.cons_append, beforeTab_append hkey, beforeTab_append hkey]

theorem tabs_and_keys_of_related (unicode : UnicodeTable) {lines pieces : List Text}
    (h : List.Forall₂ (fun line piece => piece = line ∨ piece = line ++ ['\r']) lines pieces)
    (hcounts : ∀ piece ∈ pieces, piece.count '\t' = 1) :
    (∀ line ∈ lines, line.count '\t' = 1) ∧
      lines.map (fun line => parseKey unicode (beforeTab line)) =
        pieces.map (fun piece => parseKey unicode (beforeTab piece)) := by
  induction h with
  | nil => exact ⟨by simp, rfl⟩
  | @cons line piece lines pieces hsame _ ih =>
    obtain ⟨htabs, hkeys⟩ := ih fun other hin => hcounts other (List.mem_cons_of_mem _ hin)
    have hline : line.count '\t' = 1 :=
      (count_tab_of_related hsame).symm.trans (hcounts piece List.mem_cons_self)
    refine ⟨List.forall_mem_cons.mpr ⟨hline, htabs⟩, ?_⟩
    rw [List.map_cons, List.map_cons, hkeys, beforeTab_of_related hsame hline]

/-! ### The loaded table -/

def ruleLines (content : Text) : List Text := (lines content).filter (!isBlank ·)

theorem forall₂_ruleLines (content : Text) :
    List.Forall₂ (fun line piece => piece = line ∨ piece = line ++ ['\r']) (ruleLines content)
      ((content.splitOn '\n').filter (!isBlank ·)) :=
  endedLines_related _

/-- What a full validity says about the lines. -/
theorem ruleLines_of_fullyValid {unicode : UnicodeTable} {content : Text}
    (h : checkCustomTsv unicode content = .fullyValid) :
    (∀ line ∈ ruleLines content, line.count '\t' = 1) ∧
      ((ruleLines content).map fun line => parseKey unicode (beforeTab line)).Nodup := by
  have herrors : (checkLines unicode content).errors = [] := by
    rw [checkCustomTsv] at h
    by_contra hne
    rw [if_neg hne] at h
    exact absurd h (by simp)
  obtain ⟨hcounts, -, hnodup⟩ := foldl_checkLine _ herrors
  rw [List.zipIdx_map_fst] at hcounts hnodup
  obtain ⟨htabs, hkeys⟩ := tabs_and_keys_of_related unicode (forall₂_ruleLines content) hcounts
  exact ⟨htabs, hkeys ▸ hnodup⟩

theorem filterMap_lineRule (unicode : UnicodeTable) {lines : List Text}
    (h : ∀ line ∈ lines.filter (!isBlank ·), line.count '\t' = 1) :
    lines.filterMap (lineRule unicode) =
      ((lines.filter (!isBlank ·)).filter (ColumnsFilled ·)).map (wholeRule unicode) := by
  induction lines with
  | nil => rfl
  | cons line rest ih =>
    cases hblank : isBlank line with
    | true =>
      have hrest : (line :: rest).filter (!isBlank ·) = rest.filter (!isBlank ·) :=
        List.filter_cons_of_neg (by simp [hblank])
      rw [hrest] at h ⊢
      rw [List.filterMap_cons_none (by simp [lineRule, hblank]), ih h]
    | false =>
      have hrest : (line :: rest).filter (!isBlank ·) = line :: rest.filter (!isBlank ·) :=
        List.filter_cons_of_pos (by simp [hblank])
      rw [hrest] at h ⊢
      have hline := @lineRule_eq unicode _ hblank (h line List.mem_cons_self)
      have hothers := ih fun other hin => h other (List.mem_cons_of_mem _ hin)
      rw [List.filterMap_cons, hline, hothers]
      by_cases hfilled : ColumnsFilled line
      · rw [if_pos hfilled, List.filter_cons_of_pos (by simpa using hfilled), List.map_cons]
      · rw [if_neg hfilled, List.filter_cons_of_neg (by simpa using hfilled)]

/-- A table that is checked as fully valid has a rule for each line that is not blank if and only
if no such line begins or ends with its tab. -/
theorem loads_every_line_iff {unicode : UnicodeTable} {content : Text}
    (h : checkCustomTsv unicode content = .fullyValid) :
    (InputTable.fromCustomTsv unicode content).mappings =
        (ruleLines content).map (wholeRule unicode) ↔
      ∀ line ∈ ruleLines content, ColumnsFilled line := by
  obtain ⟨hcounts, hnodup⟩ := ruleLines_of_fullyValid h
  have hrules := filterMap_lineRule unicode hcounts
  have hkeys : ((((ruleLines content).filter (ColumnsFilled ·)).map (wholeRule unicode)).map
      Mapping.key).Nodup := by
    rw [List.map_map]
    exact hnodup.sublist (List.filter_sublist.map _)
  rw [InputTable.fromCustomTsv, hrules]
  change (InputTable.new (((ruleLines content).filter (ColumnsFilled ·)).map _)).mappings = _ ↔ _
  rw [InputTable.new_mappings hkeys]
  constructor
  · intro heq
    have hlength := congrArg List.length heq
    rw [List.length_map, List.length_map, List.length_filter_eq_length_iff] at hlength
    simpa using hlength
  · intro hall
    rw [List.filter_eq_self.mpr (by simpa using hall)]

theorem loads_ka :
    (InputTable.fromCustomTsv .kana "ka\tか\r\n \nn\tん".toList).mappings =
      (ruleLines "ka\tか\r\n \nn\tん".toList).map (wholeRule .kana) :=
  (loads_every_line_iff (by decide +kernel)).mpr (by decide +kernel)

/-- A line that ends with its tab passes the check, but it is not loaded. -/
theorem empty_value_not_loaded : ¬∀ content, checkCustomTsv .kana content = .fullyValid →
    (InputTable.fromCustomTsv .kana content).mappings =
      (ruleLines content).map (wholeRule .kana) := by
  intro hloads
  exact absurd (hloads "\x7bcomposition-separator\x7d\t\nka\tか".toList (by decide +kernel))
    (by decide +kernel)

end BeanKey.Input
