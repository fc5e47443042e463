import BeanKey.Input.CustomCheck
import BeanKey.Library.Loop

/-! The text of a table, and when the table that is loaded from it has the same rules. -/
namespace BeanKey.Input

/-! ### How elements are written -/

inductive Spelling where
  | token (name : Text)
  | text (characters : Grapheme)
  deriving DecidableEq

def Spelling.written : Spelling → Text
  | .token name => bracketed name
  | .text characters => characters

def characterSpelling (value : Grapheme) : Spelling :=
  if value = [openBrace] then .token leftBracketToken
  else if value = [closeBrace] then .token rightBracketToken
  else .text value

def KeyElement.spelling : KeyElement → Option Spelling
  | .piece (.character value) => some (characterSpelling value)
  | .piece .compositionSeparator => some (.token compositionSeparatorToken)
  | .piece (.key intention input modifiers) =>
    if intention = some ['0'] ∧ input = ['0'] ∧ modifiers = {.shift} then
      some (.token shiftZeroToken)
    else if intention = some ['_'] ∧ input = ['_'] ∧ modifiers = {.shift} then
      some (.token shiftUnderscoreToken)
    else none
  | .any => some (.token anyCharacterToken)

def ValueElement.spelling : ValueElement → Option Spelling
  | .character value => some (characterSpelling value)
  | .any => some (.token anyCharacterToken)

/-- Reading and writing of the elements of one side of a rule. -/
structure ElementSyntax (T : Type) where
  parseToken : Text → Option T
  parseGrapheme : Grapheme → T
  spelling : T → Option Spelling
  token_iff : ∀ name element,
    parseToken name = some element ↔ spelling element = some (.token name)
  token_plain : ∀ name element, parseToken name = some element →
    closeBrace ∉ name ∧ '\t' ∉ name ∧ '\n' ∉ name ∧ '\r' ∉ name
  text_eq : ∀ characters element,
    spelling element = some (.text characters) → parseGrapheme characters = element
  spelling_grapheme : ∀ grapheme,
    spelling (parseGrapheme grapheme) = some (characterSpelling grapheme)

theorem characterSpelling_written (value : Grapheme) :
    (characterSpelling value).written = encodeCharacter value := by
  unfold characterSpelling encodeCharacter
  split
  · rfl
  · split <;> rfl

theorem tokens_plain : ∀ side, ∀ name ∈ knownTokens side,
    closeBrace ∉ name ∧ '\t' ∉ name ∧ '\n' ∉ name ∧ '\r' ∉ name := by
  intro side
  cases side <;> decide +kernel

theorem characterSpelling_eq_text {value characters : Grapheme}
    (h : characterSpelling value = .text characters) : value = characters := by
  unfold characterSpelling at h
  split at h
  · exact absurd h (by simp)
  · split at h
    · exact absurd h (by simp)
    · exact Spelling.text.inj h

theorem characterSpelling_eq_token {value : Grapheme} {name : Text} :
    characterSpelling value = .token name ↔
      value = [openBrace] ∧ name = leftBracketToken ∨ value = [closeBrace] ∧ name =
        rightBracketToken := by
  have hne : [openBrace] ≠ [closeBrace] := by decide
  unfold characterSpelling
  by_cases hopen : value = [openBrace]
  · rw [if_pos hopen, Spelling.token.injEq]
    simp [hopen, hne, eq_comm]
  · rw [if_neg hopen]
    by_cases hclose : value = [closeBrace]
    · rw [if_pos hclose, Spelling.token.injEq]
      simp [hclose, hne.symm, eq_comm]
    · simp [hopen, hclose]

theorem keyToken_spelling {name : Text} {element : KeyElement} (h : keyToken name = some element) :
    element.spelling = some (.token name) := by
  unfold keyToken at h
  split_ifs at h with hname hname hname hname hname hname
  all_goals
    obtain rfl := Option.some.inj h
    subst hname
    decide +kernel

theorem keyToken_of_spelling {name : Text} {element : KeyElement}
    (h : element.spelling = some (.token name)) : keyToken name = some element := by
  cases element with
  | any =>
    obtain rfl := Spelling.token.inj (Option.some.inj h)
    decide +kernel
  | piece piece =>
    cases piece with
    | character value =>
      rcases characterSpelling_eq_token.mp (Option.some.inj h) with ⟨rfl, rfl⟩ | ⟨rfl, rfl⟩
      · decide +kernel
      · decide +kernel
    | compositionSeparator =>
      obtain rfl := Spelling.token.inj (Option.some.inj h)
      decide +kernel
    | key intention input modifiers =>
      rw [KeyElement.spelling] at h
      split_ifs at h with hzero hunderscore
      · obtain rfl := Spelling.token.inj (Option.some.inj h)
        obtain ⟨rfl, rfl, rfl⟩ := hzero
        decide +kernel
      · obtain rfl := Spelling.token.inj (Option.some.inj h)
        obtain ⟨rfl, rfl, rfl⟩ := hunderscore
        decide +kernel

def keySyntax : ElementSyntax KeyElement where
  parseToken := keyToken
  parseGrapheme grapheme := .piece (.character grapheme)
  spelling := KeyElement.spelling
  token_iff _ _ := ⟨keyToken_spelling, keyToken_of_spelling⟩
  token_plain name element h := by
    refine tokens_plain .key name ?_
    unfold keyToken at h
    simp only [knownTokens, List.mem_cons, List.not_mem_nil, or_false]
    split_ifs at h <;> simp_all
  text_eq characters element h := by
    cases element with
    | any => simp [KeyElement.spelling] at h
    | piece piece =>
      cases piece with
      | character value => rw [characterSpelling_eq_text (Option.some.inj h)]
      | compositionSeparator => simp [KeyElement.spelling] at h
      | key intention input modifiers =>
        rw [KeyElement.spelling] at h
        split_ifs at h <;> simp at h
  spelling_grapheme _ := rfl

def valueSyntax : ElementSyntax ValueElement where
  parseToken := valueToken
  parseGrapheme := .character
  spelling := ValueElement.spelling
  token_iff name element := by
    constructor
    · intro h
      unfold valueToken at h
      split_ifs at h with hname hname hname
      all_goals
        obtain rfl := Option.some.inj h
        subst hname
        decide +kernel
    · intro h
      cases element with
      | any =>
        obtain rfl := Spelling.token.inj (Option.some.inj h)
        decide +kernel
      | character value =>
        rcases characterSpelling_eq_token.mp (Option.some.inj h) with ⟨rfl, rfl⟩ | ⟨rfl, rfl⟩
        · decide +kernel
        · decide +kernel
  token_plain name element h := by
    refine tokens_plain .value name ?_
    unfold valueToken at h
    simp only [knownTokens, List.mem_cons, List.not_mem_nil, or_false]
    split_ifs at h <;> simp_all
  text_eq characters element h := by
    cases element with
    | any => simp [ValueElement.spelling] at h
    | character value => rw [characterSpelling_eq_text (Option.some.inj h)]
  spelling_grapheme _ := rfl

theorem encodeKey_eq (element : KeyElement) :
    encodeKey element = match element.spelling with
      | some spelling => .ok spelling.written
      | none => .error ⟨element⟩ := by
  cases element with
  | any => rfl
  | piece piece =>
    cases piece with
    | character value =>
      rw [encodeKey, KeyElement.spelling]
      simp only [characterSpelling_written]
    | compositionSeparator => rfl
    | key intention input modifiers =>
      rw [encodeKey, KeyElement.spelling]
      split_ifs <;> rfl

/-! ### Reading what was written -/

def ElementSyntax.written {T : Type} (elementSyntax : ElementSyntax T) (elements : List T) : Text :=
  elements.flatMap fun element => ((elementSyntax.spelling element).map Spelling.written).getD []

section
variable {T : Type} (elementSyntax : ElementSyntax T) (unicode : UnicodeTable)

/-- `parse_elements` with the two readers of the syntax. -/
def ElementSyntax.parse (value : Text) : List T :=
  parseElements unicode elementSyntax.parseToken elementSyntax.parseGrapheme value

/-- Characters that are written as they are come back as one element: together with the text after
them they do not begin with a token, and they are the first grapheme. -/
def ElementSyntax.StandsAlone : List T → Prop
  | [] => True
  | element :: rest =>
    (∀ characters, elementSyntax.spelling element = some (.text characters) →
      tokenAt elementSyntax.parseToken (characters ++ elementSyntax.written rest) = none ∧
        (graphemes unicode (characters ++ elementSyntax.written rest)).head? = some characters) ∧
      ElementSyntax.StandsAlone rest

end

section
variable {T : Type} {elementSyntax : ElementSyntax T} {unicode : UnicodeTable}

theorem tokenAt_length {parseToken : Text → Option T} {value rest : Text} {element : T}
    (h : tokenAt parseToken value = some (element, rest)) : rest.length < value.length := by
  cases value with
  | nil => simp [tokenAt] at h
  | cons character others =>
    rw [tokenAt] at h
    split at h
    · obtain ⟨found, -, hfound⟩ := Option.map_eq_some_iff.mp h
      obtain ⟨-, rfl⟩ := Prod.mk.inj hfound
      have hdrop := (List.dropWhile_suffix (· ≠ closeBrace) (l := others)).length_le
      rw [List.length_tail, List.length_cons]
      omega
    · exact absurd h (by simp)

theorem grapheme_length {value grapheme : Text} {others : List Grapheme}
    (h : graphemes unicode value = grapheme :: others) :
    grapheme ≠ [] ∧ value = grapheme ++ others.flatten := by
  refine ⟨ne_nil_of_mem_graphemes unicode (h ▸ List.mem_cons_self), ?_⟩
  rw [← flatten_graphemes unicode value, h, List.flatten_cons]

theorem tokenAt_some {parseToken : Text → Option T} {value rest : Text} {element : T}
    (h : tokenAt parseToken value = some (element, rest)) :
    ∃ name, value = bracketed name ++ rest ∧ parseToken name = some element := by
  cases value with
  | nil => simp [tokenAt] at h
  | cons character others =>
    rw [tokenAt] at h
    split at h
    · next hopen =>
      obtain ⟨found, hfound, hpair⟩ := Option.map_eq_some_iff.mp h
      obtain ⟨rfl, rfl⟩ := Prod.mk.inj hpair
      obtain ⟨name, after, rfl, hname⟩ := List.eq_append_cons_of_mem hopen.2
      have hne : ∀ character ∈ name, decide (character ≠ closeBrace) = true := by
        intro character hin
        rw [decide_eq_true_eq]
        rintro rfl
        exact hname hin
      rw [List.takeWhile_append_of_pos hne] at hfound
      rw [List.dropWhile_append_of_pos hne, hopen.1]
      refine ⟨name, ?_, by simpa using hfound⟩
      simp [bracketed]
    · exact absurd h (by simp)

/-- The loop does not depend on how long it may run. -/
theorem parseElementsFrom_congr {parseToken : Text → Option T} {parseGrapheme : Grapheme → T}
    {fuel fuel' : Nat} {value : Text} (h : value.length ≤ fuel) (h' : value.length ≤ fuel') :
    parseElementsFrom unicode parseToken parseGrapheme fuel value =
      parseElementsFrom unicode parseToken parseGrapheme fuel' value := by
  have hnil : ∀ fuel, parseElementsFrom unicode parseToken parseGrapheme fuel [] = [] := by
    intro fuel
    cases fuel <;> rfl
  induction fuel generalizing fuel' value with
  | zero =>
    obtain rfl : value = [] := List.length_eq_zero_iff.mp (Nat.le_zero.mp h)
    rw [hnil, hnil]
  | succ fuel ih =>
    cases fuel' with
    | zero =>
      obtain rfl : value = [] := List.length_eq_zero_iff.mp (Nat.le_zero.mp h')
      rw [hnil, hnil]
    | succ fuel' =>
      rw [parseElementsFrom, parseElementsFrom]
      cases htoken : tokenAt parseToken value with
      | some found =>
        obtain ⟨element, rest⟩ := found
        have hlt := tokenAt_length htoken
        dsimp only
        rw [ih (by omega) (show rest.length ≤ fuel' by omega)]
      | none =>
        cases hgraphemes : graphemes unicode value with
        | nil => rfl
        | cons grapheme others =>
          obtain ⟨hne, hvalue⟩ := grapheme_length hgraphemes
          have hpos := List.length_pos_of_ne_nil hne
          have hlength : (value.drop grapheme.length).length = value.length - grapheme.length :=
            List.length_drop
          dsimp only
          rw [ih (by omega) (show (value.drop grapheme.length).length ≤ fuel' by omega)]

namespace ElementSyntax

theorem parse_nil : elementSyntax.parse unicode [] = [] := rfl

theorem parse_token {value rest : Text} {element : T}
    (h : tokenAt elementSyntax.parseToken value = some (element, rest)) :
    elementSyntax.parse unicode value = element :: elementSyntax.parse unicode rest := by
  have hlt := tokenAt_length h
  obtain ⟨fuel, hfuel⟩ := Nat.exists_eq_succ_of_ne_zero (Nat.ne_zero_of_lt hlt)
  rw [parse, parseElements, hfuel, parseElementsFrom, h]
  dsimp only
  rw [parseElementsFrom_congr (show rest.length ≤ fuel by omega) (Nat.le_refl _)]
  rfl

theorem parse_grapheme {value grapheme : Text} {others : List Grapheme}
    (htoken : tokenAt elementSyntax.parseToken value = none)
    (h : graphemes unicode value = grapheme :: others) :
    elementSyntax.parse unicode value =
      elementSyntax.parseGrapheme grapheme :: elementSyntax.parse unicode others.flatten := by
  obtain ⟨hne, hvalue⟩ := grapheme_length h
  have hpos := List.length_pos_of_ne_nil hne
  have hlength : value.length = grapheme.length + others.flatten.length := by
    conv_lhs => rw [hvalue]
    exact List.length_append
  obtain ⟨fuel, hfuel⟩ := Nat.exists_eq_succ_of_ne_zero (show value.length ≠ 0 by omega)
  have hdrop : value.drop grapheme.length = others.flatten := by
    conv_lhs => rw [hvalue]
    exact List.drop_left
  rw [parse, parseElements, hfuel, parseElementsFrom, htoken, h]
  dsimp only
  rw [hdrop, parseElementsFrom_congr (show others.flatten.length ≤ fuel by omega) (Nat.le_refl _)]
  rfl

/-- How a text that is not empty goes on: with a token, or with a grapheme. -/
theorem parse_cases {value : Text} (hne : value ≠ []) :
    (∃ name element rest, value = bracketed name ++ rest ∧
        elementSyntax.parseToken name = some element ∧
        tokenAt elementSyntax.parseToken value = some (element, rest)) ∨
      ∃ grapheme others, tokenAt elementSyntax.parseToken value = none ∧
        graphemes unicode value = grapheme :: others ∧ grapheme ≠ [] ∧
        value = grapheme ++ others.flatten := by
  cases htoken : tokenAt elementSyntax.parseToken value with
  | some found =>
    obtain ⟨element, rest⟩ := found
    obtain ⟨name, hvalue, hname⟩ := tokenAt_some htoken
    exact .inl ⟨name, element, rest, hvalue, hname, rfl⟩
  | none =>
    refine .inr ?_
    cases hgraphemes : graphemes unicode value with
    | nil => exact absurd ((graphemes_eq_nil unicode).mp hgraphemes) hne
    | cons grapheme others =>
      obtain ⟨hgrapheme, hvalue⟩ := grapheme_length hgraphemes
      exact ⟨grapheme, others, rfl, rfl, hgrapheme, hvalue⟩

theorem tokenAt_bracketed {name : Text} {element : T}
    (h : elementSyntax.parseToken name = some element) (rest : Text) :
    tokenAt elementSyntax.parseToken (bracketed name ++ rest) = some (element, rest) := by
  have hplain := (elementSyntax.token_plain name element h).1
  have hname : ∀ character ∈ name, decide (character ≠ closeBrace) = true := by
    intro character hin
    rw [decide_eq_true_eq]
    rintro rfl
    exact hplain hin
  rw [bracketed, List.cons_append, List.cons_append, tokenAt, if_pos ⟨rfl, by simp⟩,
    List.append_assoc, List.takeWhile_append_of_pos hname, List.dropWhile_append_of_pos hname]
  simp [h]

/-- The written elements are read back if and only if each of them stands alone. -/
theorem parse_written {elements : List T}
    (h : ∀ element ∈ elements, (elementSyntax.spelling element).isSome) :
    elementSyntax.parse unicode (elementSyntax.written elements) = elements ↔
      elementSyntax.StandsAlone unicode elements := by
  induction elements with
  | nil => exact iff_of_true rfl trivial
  | cons element rest ih =>
    obtain ⟨spelling, hspelling⟩ := Option.isSome_iff_exists.mp (h element List.mem_cons_self)
    have hrest := ih fun other hin => h other (List.mem_cons_of_mem _ hin)
    have hwritten : elementSyntax.written (element :: rest) =
        spelling.written ++ elementSyntax.written rest := by
      rw [written, List.flatMap_cons, hspelling]
      rfl
    rw [hwritten, StandsAlone, hspelling]
    cases spelling with
    | token name =>
      have htoken := tokenAt_bracketed ((elementSyntax.token_iff name element).mpr hspelling)
        (elementSyntax.written rest)
      rw [Spelling.written, parse_token htoken, List.cons.injEq, hrest]
      simp
    | text characters =>
      have helement := elementSyntax.text_eq characters element hspelling
      simp only [Option.some.injEq, Spelling.text.injEq, forall_eq', Spelling.written]
      constructor
      · intro hparse
        have hne : characters ++ elementSyntax.written rest ≠ [] := by
          intro hempty
          rw [hempty, parse_nil] at hparse
          exact absurd hparse (by simp)
        rcases @parse_cases _ elementSyntax unicode _ hne with
          ⟨name, other, after, -, hname, htoken⟩ | ⟨grapheme, others, htoken, hgraphemes, -, hvalue⟩
        · rw [parse_token htoken] at hparse
          obtain ⟨rfl, -⟩ := List.cons.inj hparse
          have := (elementSyntax.token_iff name other).mp hname
          rw [hspelling] at this
          exact absurd this (by simp)
        · rw [parse_grapheme htoken hgraphemes] at hparse
          obtain ⟨hfirst, hlater⟩ := List.cons.inj hparse
          have hsame := elementSyntax.spelling_grapheme grapheme
          rw [hfirst, hspelling] at hsame
          obtain rfl := characterSpelling_eq_text (Option.some.inj hsame).symm
          rw [← List.append_cancel_left hvalue] at hlater
          exact ⟨⟨htoken, by rw [hgraphemes]; rfl⟩, hrest.mp hlater⟩
      · rintro ⟨⟨htoken, hhead⟩, hlater⟩
        obtain ⟨others, hgraphemes⟩ := List.head?_eq_some_iff.mp hhead
        obtain ⟨-, hvalue⟩ := grapheme_length hgraphemes
        rw [parse_grapheme htoken hgraphemes, helement, ← List.append_cancel_left hvalue,
          hrest.mpr hlater]

/-- Reading and writing keep each tab, line feed and carriage return. -/
theorem count_written_parse {character : Char}
    (hcharacter : character = '\t' ∨ character = '\n' ∨ character = '\r') (value : Text) :
    (elementSyntax.written (elementSyntax.parse unicode value)).count character =
      value.count character := by
  have hencoded : ∀ grapheme : Grapheme,
      (characterSpelling grapheme).written.count character = grapheme.count character := by
    intro grapheme
    rw [characterSpelling_written, encodeCharacter]
    split_ifs with hopen hclose
    · subst hopen
      rcases hcharacter with rfl | rfl | rfl <;> decide +kernel
    · subst hclose
      rcases hcharacter with rfl | rfl | rfl <;> decide +kernel
    · rfl
  induction hlength : value.length using Nat.strong_induction_on generalizing value with
  | _ length ih =>
    by_cases hne : value = []
    · subst hne
      rfl
    rcases @parse_cases _ elementSyntax unicode _ hne with
      ⟨name, element, rest, hvalue, hname, htoken⟩ | ⟨grapheme, others, htoken, hgraphemes,
        hgrapheme, hvalue⟩
    · have hlt := tokenAt_length htoken
      have hrest := ih rest.length (by omega) rest rfl
      rw [parse_token htoken, written, List.flatMap_cons,
        (elementSyntax.token_iff name element).mp hname, ← written, List.count_append,
          hrest, hvalue,
        List.count_append]
      rfl
    · have hpos := List.length_pos_of_ne_nil hgrapheme
      have hsum := congrArg List.length hvalue
      rw [List.length_append] at hsum
      have hrest := ih others.flatten.length (by omega) others.flatten rfl
      rw [parse_grapheme htoken hgraphemes, written, List.flatMap_cons,
        elementSyntax.spelling_grapheme, ← written, List.count_append, hrest]
      conv_rhs => rw [hvalue, List.count_append, ← hencoded]
      rfl

theorem parse_ne_nil {value : Text} (hne : value ≠ []) :
    elementSyntax.parse unicode value ≠ [] := by
  rcases @parse_cases _ elementSyntax unicode _ hne with
    ⟨name, element, rest, -, -, htoken⟩ | ⟨grapheme, others, htoken, hgraphemes, -, -⟩
  · rw [parse_token htoken]
    exact List.cons_ne_nil _ _
  · rw [parse_grapheme htoken hgraphemes]
    exact List.cons_ne_nil _ _

end ElementSyntax

end

/-! ### The text of a table -/

def Mapping.keyText (rule : Mapping) : Text := keySyntax.written rule.key

def Mapping.valueText (rule : Mapping) : Text := valueSyntax.written rule.value

def Mapping.text (rule : Mapping) : Text := rule.keyText ++ '\t' :: rule.valueText

theorem mapM_encodeKey {key : List KeyElement} {texts : List Text}
    (h : key.mapM encodeKey = .ok texts) : texts.flatten = keySyntax.written key ∧
      ∀ element ∈ key, (KeyElement.spelling element).isSome := by
  induction key generalizing texts with
  | nil =>
    obtain rfl : [] = texts := Except.ok.inj h
    exact ⟨rfl, by simp⟩
  | cons element rest ih =>
    rw [List.mapM_cons, encodeKey_eq] at h
    cases hspelling : element.spelling with
    | none => simp [hspelling, bind, Except.bind] at h
    | some spelling =>
      cases hrest : rest.mapM encodeKey with
      | error error => simp [hspelling, hrest, bind, Except.bind] at h
      | ok others =>
        obtain rfl : spelling.written :: others = texts := by
          simpa [hspelling, hrest, bind, Except.bind, pure, Except.pure] using h
        obtain ⟨hflatten, hall⟩ := ih hrest
        refine ⟨?_, List.forall_mem_cons.mpr ⟨by rw [hspelling]; rfl, hall⟩⟩
        rw [List.flatten_cons, hflatten, ElementSyntax.written, ElementSyntax.written,
          List.flatMap_cons]
        change _ = ((KeyElement.spelling element).map Spelling.written).getD [] ++ _
        rw [hspelling]
        rfl

theorem flatMap_encodeValue (value : List ValueElement) :
    value.flatMap encodeValue = valueSyntax.written value := by
  refine List.flatMap_congr fun element _ => ?_
  cases element with
  | any => rfl
  | character value => exact (characterSpelling_written value).symm

theorem encodeRule_spec {rule : Mapping} {line : Text} (h : encodeRule rule = .ok line) :
    line = rule.text ∧ ∀ element ∈ rule.key, (KeyElement.spelling element).isSome := by
  rw [encodeRule] at h
  cases hkey : rule.key.mapM encodeKey with
  | error error =>
    rw [hkey] at h
    exact absurd h (by simp [Except.map])
  | ok texts =>
    rw [hkey] at h
    obtain ⟨hflatten, hall⟩ := mapM_encodeKey hkey
    obtain rfl := Except.ok.inj h
    refine ⟨?_, hall⟩
    dsimp only
    rw [hflatten, flatMap_encodeValue]
    rfl

theorem mapM_encodeRule {rules : List Mapping} {texts : List Text}
    (h : rules.mapM encodeRule = .ok texts) : texts = rules.map Mapping.text ∧
      ∀ rule ∈ rules, ∀ element ∈ rule.key, (KeyElement.spelling element).isSome := by
  induction rules generalizing texts with
  | nil =>
    obtain rfl : [] = texts := Except.ok.inj h
    exact ⟨rfl, by simp⟩
  | cons rule rest ih =>
    rw [List.mapM_cons] at h
    cases hrule : encodeRule rule with
    | error error => simp [hrule, bind, Except.bind] at h
    | ok line =>
      cases hrest : rest.mapM encodeRule with
      | error error => simp [hrule, hrest, bind, Except.bind] at h
      | ok others =>
        obtain rfl : line :: others = texts := by
          simpa [hrule, hrest, bind, Except.bind, pure, Except.pure] using h
        obtain ⟨hline, hkey⟩ := encodeRule_spec hrule
        obtain ⟨hothers, hall⟩ := ih hrest
        exact ⟨by rw [hline, hothers, List.map_cons], List.forall_mem_cons.mpr ⟨hkey, hall⟩⟩

theorem toCustomTsv_spec {table : InputTable} {text : Text} (h : table.toCustomTsv = .ok text) :
    text = ['\n'].intercalate (table.mappings.map Mapping.text) ∧
      ∀ rule ∈ table.mappings, ∀ element ∈ rule.key, (KeyElement.spelling element).isSome := by
  rw [InputTable.toCustomTsv] at h
  cases hrules : table.mappings.mapM encodeRule with
  | error error =>
    rw [hrules] at h
    exact absurd h (by simp [Except.map])
  | ok lines =>
    rw [hrules] at h
    obtain ⟨hlines, hall⟩ := mapM_encodeRule hrules
    obtain rfl := Except.ok.inj h
    exact ⟨by rw [hlines], hall⟩

/-! ### The rules of a loaded table -/

theorem mem_splitOn {separator : Char} {text piece : Text} (h : piece ∈ text.splitOn separator) :
    separator ∉ piece ∧ piece ⊆ text := by
  induction text generalizing piece with
  | nil =>
    obtain rfl : piece = [] := by simpa using h
    simp
  | cons character rest ih =>
    rw [List.splitOn_cons_eq_if_modifyHead] at h
    split at h
    · cases List.mem_cons.mp h with
      | inl hempty => simp [hempty]
      | inr hin => exact ⟨(ih hin).1, fun _ hx => List.mem_cons_of_mem _ ((ih hin).2 hx)⟩
    · next hne =>
      obtain ⟨first, others, hsplit⟩ :=
        List.exists_cons_of_ne_nil (List.splitOn_ne_nil separator rest)
      rw [hsplit, List.modifyHead_cons] at h
      cases List.mem_cons.mp h with
      | inl hfirst =>
        obtain ⟨hout, hsub⟩ := ih (hsplit ▸ List.mem_cons_self : first ∈ rest.splitOn separator)
        rw [hfirst]
        refine ⟨?_, List.cons_subset_cons _ hsub⟩
        simp only [List.mem_cons, not_or]
        exact ⟨fun heq => hne (by simp [heq]), hout⟩
      | inr hin =>
        obtain ⟨hout, hsub⟩ :=
          ih (hsplit ▸ List.mem_cons_of_mem _ hin : piece ∈ rest.splitOn separator)
        exact ⟨hout, fun _ hx => List.mem_cons_of_mem _ (hsub hx)⟩

theorem mem_endedLines {pieces : List Text} {line : Text} (h : line ∈ endedLines pieces) :
    ∃ piece ∈ pieces, line ⊆ piece := by
  induction pieces with
  | nil => exact absurd h List.not_mem_nil
  | cons piece rest ih =>
    cases rest with
    | nil =>
      rw [endedLines] at h
      split at h
      · exact absurd h List.not_mem_nil
      · exact ⟨piece, List.mem_cons_self, List.mem_singleton.mp h ▸ List.Subset.refl _⟩
    | cons next rest =>
      rw [endedLines] at h
      · cases List.mem_cons.mp h with
        | inl hline =>
          refine ⟨piece, List.mem_cons_self, ?_⟩
          rw [hline, stripReturn]
          split
          · exact List.dropLast_subset _
          · exact List.Subset.refl _
        | inr hin =>
          obtain ⟨other, hother, hsub⟩ := ih hin
          exact ⟨other, List.mem_cons_of_mem _ hother, hsub⟩
      · simp

/-- A rule that was loaded has two sides, and neither a tab nor a line feed in them. -/
theorem of_mem_fromCustomTsv {unicode : UnicodeTable} {content : Text} {rule : Mapping}
    (h : rule ∈ (InputTable.fromCustomTsv unicode content).mappings) :
    (rule.key ≠ [] ∧ rule.value ≠ []) ∧ ∀ character, character = '\t' ∨ character = '\n' →
      character ∉ rule.keyText ∧ character ∉ rule.valueText := by
  obtain ⟨line, hline, hrule⟩ := List.mem_filterMap.mp (mem_new h)
  obtain ⟨piece, hpiece, hsub⟩ := mem_endedLines hline
  rw [lineRule] at hrule
  split at hrule
  · exact absurd hrule (by simp)
  cases hcolumns : (line.splitOn '\t').filter (· ≠ []) with
  | nil =>
    rw [hcolumns] at hrule
    exact absurd hrule (by simp)
  | cons key others =>
    rw [hcolumns] at hrule
    cases others with
    | nil => exact absurd hrule (by simp)
    | cons value others =>
      obtain rfl : ⟨parseKey unicode key, parseValue unicode value⟩ = rule := Option.some.inj hrule
      have hcolumn : ∀ column ∈ [key, value], column ≠ [] ∧
          ∀ character, character = '\t' ∨ character = '\n' → character ∉ column := by
        intro column hin
        have hmem : column ∈ (line.splitOn '\t').filter (· ≠ []) := by
          rw [hcolumns]
          rcases List.mem_cons.mp hin with rfl | hvalue
          · exact List.mem_cons_self
          · rw [List.mem_singleton.mp hvalue]
            exact List.mem_cons_of_mem _ List.mem_cons_self
        obtain ⟨hsplit, hne⟩ := List.mem_filter.mp hmem
        refine ⟨by simpa using hne, ?_⟩
        rintro character (rfl | rfl)
        · exact (mem_splitOn hsplit).1
        · exact fun hbreak => (mem_splitOn hpiece).1 (hsub ((mem_splitOn hsplit).2 hbreak))
      obtain ⟨hkey, hkeyPlain⟩ := hcolumn key List.mem_cons_self
      obtain ⟨hvalue, hvaluePlain⟩ := hcolumn value (by simp)
      refine ⟨⟨keySyntax.parse_ne_nil hkey, valueSyntax.parse_ne_nil hvalue⟩, ?_⟩
      intro character hcharacter
      have hkinds : character = '\t' ∨ character = '\n' ∨ character = '\r' :=
        hcharacter.imp_right .inl
      refine ⟨List.count_eq_zero.mp ?_, List.count_eq_zero.mp ?_⟩
      · exact (keySyntax.count_written_parse hkinds key).trans
          (List.count_eq_zero.mpr (hkeyPlain character hcharacter))
      · exact (valueSyntax.count_written_parse hkinds value).trans
          (List.count_eq_zero.mpr (hvaluePlain character hcharacter))

/-! ### Loading the text of a table -/

theorem lineRule_append {unicode : UnicodeTable} {key value : Text} (hkey : '\t' ∉ key)
    (hvalue : '\t' ∉ value) :
    lineRule unicode (key ++ '\t' :: value) =
      if isBlank (key ++ '\t' :: value) = false ∧ key ≠ [] ∧ value ≠ [] then
        some ⟨parseKey unicode key, parseValue unicode value⟩
      else none := by
  cases hblank : isBlank (key ++ '\t' :: value) with
  | true => simp [lineRule, hblank]
  | false =>
    have hcount : (key ++ '\t' :: value).count '\t' = 1 := by
      rw [List.count_append, List.count_cons_self, List.count_eq_zero.mpr hkey,
        List.count_eq_zero.mpr hvalue]
    rw [lineRule_eq hblank hcount, wholeRule, beforeTab_append hkey, afterTab_append hkey]
    simp only [columnsFilled_iff hkey hvalue, true_and]

theorem new_length_le (entries : List Mapping) :
    (InputTable.new entries).mappings.length ≤ entries.length := by
  induction entries using List.reverseRecOn with
  | nil => exact Nat.le_refl _
  | append_singleton entries entry ih =>
    change ((entries ++ [entry]).foldl insertMapping []).length ≤ _
    rw [List.foldl_append, List.foldl_cons, List.foldl_nil, insertMapping, List.length_append]
    change (InputTable.new entries).mappings.length ≤ _ at ih
    split
    · rw [List.length_map]
      exact ih.trans (Nat.le_add_right _ _)
    · rw [List.length_append]
      exact Nat.add_le_add_right ih _

/-- Where no rule is lost, none takes the place of another. -/
theorem new_mappings_of_length {entries : List Mapping}
    (h : (InputTable.new entries).mappings.length = entries.length) :
    (InputTable.new entries).mappings = entries := by
  induction entries using List.reverseRecOn with
  | nil => rfl
  | append_singleton entries entry ih =>
    have hle := new_length_le entries
    change ((entries ++ [entry]).foldl insertMapping []).length = _ at h
    change (entries ++ [entry]).foldl insertMapping [] = _
    rw [List.foldl_append, List.foldl_cons, List.foldl_nil, insertMapping] at h ⊢
    change (InputTable.new entries).mappings.length ≤ _ at hle
    split at h
    · rw [List.length_map, List.length_append, List.length_singleton] at h
      change (InputTable.new entries).mappings.length = _ at h
      omega
    · next hnew =>
      rw [List.length_append, List.length_append] at h
      rw [if_neg hnew]
      exact congrArg (· ++ [entry]) (ih (Nat.add_right_cancel h))

theorem forall₂_of_filterMap {α β : Type} {f : α → Option β} {xs : List α} {ys : List β}
    (h : xs.filterMap f = ys) (hlength : xs.length ≤ ys.length) :
    List.Forall₂ (fun x y => f x = some y) xs ys := by
  induction xs generalizing ys with
  | nil =>
    obtain rfl : [] = ys := h
    exact .nil
  | cons x xs ih =>
    cases hx : f x with
    | none =>
      rw [List.filterMap_cons_none hx] at h
      have hle := List.length_filterMap_le f xs
      rw [h] at hle
      rw [List.length_cons] at hlength
      omega
    | some y =>
      rw [List.filterMap_cons_some hx] at h
      subst h
      exact .cons hx (ih rfl (Nat.le_of_succ_le_succ hlength))

theorem filterMap_of_forall₂ {α β : Type} {f : α → Option β} {xs : List α} {ys : List β}
    (h : List.Forall₂ (fun x y => f x = some y) xs ys) : xs.filterMap f = ys := by
  induction h with
  | nil => rfl
  | cons hx _ ih => rw [List.filterMap_cons_some hx, ih]

theorem text_ne_nil (rule : Mapping) : rule.text ≠ [] := by simp [Mapping.text]

theorem endedLines_length (rules : List Mapping) :
    (endedLines (rules.map Mapping.text)).length = rules.length := by
  induction rules with
  | nil => rfl
  | cons rule rest ih =>
    cases rest with
    | nil => simp [endedLines, text_ne_nil]
    | cons next rest =>
      rw [List.map_cons, List.map_cons, endedLines, ← List.map_cons, List.length_cons, ih]
      · rfl
      · simp

/-- All lines but the last one lose a carriage return at their end. -/
theorem endedLines_load_iff {unicode : UnicodeTable} (rules : List Mapping) :
    List.Forall₂ (fun line rule => lineRule unicode line = some rule)
        (endedLines (rules.map Mapping.text)) rules ↔
      (∀ rule ∈ rules.dropLast, lineRule unicode (stripReturn rule.text) = some rule) ∧
        ∀ rule ∈ rules.getLast?, lineRule unicode rule.text = some rule := by
  induction rules with
  | nil => exact iff_of_true .nil ⟨by simp, by simp⟩
  | cons rule rest ih =>
    cases rest with
    | nil => simp [endedLines, text_ne_nil]
    | cons next rest =>
      rw [List.map_cons, List.map_cons, endedLines, ← List.map_cons, List.forall₂_cons, ih,
        List.dropLast_cons_cons, List.forall_mem_cons, List.getLast?_cons_cons, and_assoc]
      simp

/-- A rule of which each side is read back as it was, on a line that is not blank. -/
structure Mapping.Exportable (unicode : UnicodeTable) (rule : Mapping) : Prop where
  filled : rule.key ≠ [] ∧ rule.value ≠ []
  plain : ∀ character, character = '\t' ∨ character = '\n' →
    character ∉ rule.keyText ∧ character ∉ rule.valueText
  key : keySyntax.StandsAlone unicode rule.key
  value : valueSyntax.StandsAlone unicode rule.value
  text : isBlank rule.text = false

section
variable {unicode : UnicodeTable} {rule : Mapping}

theorem valueSpelling_isSome (value : List ValueElement) :
    ∀ element ∈ value, (valueSyntax.spelling element).isSome := by
  intro element _
  cases element <;> rfl

/-- Some other line with the key of the rule can only be loaded as the rule if its value is read
so. -/
theorem lineRule_eq_some_iff
    (hkeys : ∀ element ∈ rule.key, (KeyElement.spelling element).isSome)
    (hplain : '\t' ∉ rule.keyText) {value : Text} (hvalue : '\t' ∉ value) :
    lineRule unicode (rule.keyText ++ '\t' :: value) = some rule ↔
      isBlank (rule.keyText ++ '\t' :: value) = false ∧ rule.keyText ≠ [] ∧ value ≠ [] ∧
        keySyntax.StandsAlone unicode rule.key ∧ parseValue unicode value = rule.value := by
  have hkey : parseKey unicode rule.keyText = rule.key ↔ keySyntax.StandsAlone unicode rule.key :=
    keySyntax.parse_written hkeys
  rw [lineRule_append hplain hvalue, ← hkey]
  constructor
  · intro hrule
    split at hrule
    · next hcondition =>
      have hsame := Option.some.inj hrule
      refine ⟨hcondition.1, hcondition.2.1, hcondition.2.2, ?_, ?_⟩
      · exact congrArg Mapping.key hsame
      · exact congrArg Mapping.value hsame
    · exact absurd hrule (by simp)
  · rintro ⟨hblank, hkeyNil, hvalueNil, hparsed, hparsedValue⟩
    rw [if_pos ⟨hblank, hkeyNil, hvalueNil⟩, hparsed, hparsedValue]

theorem loads_text_iff (hkeys : ∀ element ∈ rule.key, (KeyElement.spelling element).isSome)
    (hfilled : rule.key ≠ [] ∧ rule.value ≠ [])
    (hplain : ∀ character, character = '\t' ∨ character = '\n' →
      character ∉ rule.keyText ∧ character ∉ rule.valueText) :
    lineRule unicode rule.text = some rule ↔ rule.Exportable unicode := by
  have hvalue : parseValue unicode rule.valueText = rule.value ↔
      valueSyntax.StandsAlone unicode rule.value :=
    valueSyntax.parse_written (valueSpelling_isSome rule.value)
  have hkey : parseKey unicode rule.keyText = rule.key ↔ keySyntax.StandsAlone unicode rule.key :=
    keySyntax.parse_written hkeys
  obtain ⟨hkeyTab, hvalueTab⟩ := hplain '\t' (.inl rfl)
  rw [Mapping.text, lineRule_eq_some_iff hkeys hkeyTab hvalueTab, hvalue]
  constructor
  · rintro ⟨hblank, -, -, hkeyAlone, hvalueAlone⟩
    exact ⟨hfilled, hplain, hkeyAlone, hvalueAlone, hblank⟩
  · intro h
    refine ⟨h.text, ?_, ?_, h.key, h.value⟩
    · intro hempty
      have hparsed := hkey.mpr h.key
      rw [hempty] at hparsed
      exact hfilled.1 hparsed.symm
    · intro hempty
      have hparsed := hvalue.mpr h.value
      rw [hempty] at hparsed
      exact hfilled.2 hparsed.symm

theorem text_getLast? (rule : Mapping) :
    rule.text.getLast? = some '\r' ↔ rule.valueText.getLast? = some '\r' := by
  rw [Mapping.text, List.getLast?_append, List.getLast?_cons]
  cases hlast : rule.valueText.getLast? <;> simp

/-- A value that ends with a carriage return loses it. -/
theorem stripped_not_loaded (hkeys : ∀ element ∈ rule.key, (KeyElement.spelling element).isSome)
    (hplain : ∀ character, character = '\t' ∨ character = '\n' →
      character ∉ rule.keyText ∧ character ∉ rule.valueText)
    (hreturn : rule.valueText.getLast? = some '\r') :
    lineRule unicode (stripReturn rule.text) ≠ some rule := by
  intro hload
  obtain ⟨rest, hrest⟩ := List.getLast?_eq_some_iff.mp hreturn
  obtain ⟨hkeyTab, hvalueTab⟩ := hplain '\t' (.inl rfl)
  have hstripped : stripReturn rule.text = rule.keyText ++ '\t' :: rest := by
    rw [stripReturn, if_pos ((text_getLast? rule).mpr hreturn), Mapping.text, hrest,
      ← List.cons_append, ← List.append_assoc, List.dropLast_concat]
  have hrestTab : '\t' ∉ rest := fun hin => hvalueTab (hrest ▸ List.mem_append_left _ hin)
  rw [hstripped, lineRule_eq_some_iff hkeys hkeyTab hrestTab] at hload
  have hcount : rule.valueText.count '\r' = rest.count '\r' := by
    rw [Mapping.valueText, ← hload.2.2.2.2]
    exact valueSyntax.count_written_parse (.inr (.inr rfl)) rest
  rw [hrest, List.count_append] at hcount
  simp at hcount

end

theorem lines_intercalate {rules : List Mapping} (h : ∀ rule ∈ rules, '\n' ∉ rule.text) :
    lines (['\n'].intercalate (rules.map Mapping.text)) = endedLines (rules.map Mapping.text) := by
  cases rules with
  | nil => rfl
  | cons rule rest =>
    rw [lines, List.splitOn_intercalate '\n' (by simpa using h) (by simp)]

/-- The text of a table loads as the same rules if and only if each rule can be exported and no rule
before the last one ends with a carriage return. -/
theorem export_round_trips_iff {unicode : UnicodeTable} {table : InputTable} {text : Text}
    (h : table.toCustomTsv = .ok text) :
    (InputTable.fromCustomTsv unicode text).mappings = table.mappings ∧
        (InputTable.fromCustomTsv unicode text).toCustomTsv = .ok text ↔
      (∀ rule ∈ table.mappings, rule.Exportable unicode) ∧
        ∀ rule ∈ table.mappings.dropLast, rule.valueText.getLast? ≠ some '\r' := by
  obtain ⟨htext, hkeys⟩ := toCustomTsv_spec h
  have hagain : (InputTable.fromCustomTsv unicode text).mappings = table.mappings →
      (InputTable.fromCustomTsv unicode text).toCustomTsv = .ok text := by
    intro hsame
    rw [InputTable.toCustomTsv, hsame]
    exact h
  have hbreak : ∀ {rule : Mapping}, (∀ character, character = '\t' ∨ character = '\n' →
      character ∉ rule.keyText ∧ character ∉ rule.valueText) → '\n' ∉ rule.text := by
    intro rule hplain
    obtain ⟨hkey, hvalue⟩ := hplain '\n' (.inr rfl)
    simp [Mapping.text, hkey, hvalue]
  constructor
  · rintro ⟨hsame, -⟩
    have hloaded : ∀ rule ∈ table.mappings, (rule.key ≠ [] ∧ rule.value ≠ []) ∧
        ∀ character, character = '\t' ∨ character = '\n' →
          character ∉ rule.keyText ∧ character ∉ rule.valueText :=
      fun rule hin => of_mem_fromCustomTsv (hsame ▸ hin)
    have hlines := lines_intercalate fun rule hin => hbreak (hloaded rule hin).2
    rw [← htext] at hlines
    rw [InputTable.fromCustomTsv, hlines] at hsame
    have hle := new_length_le ((endedLines (table.mappings.map Mapping.text)).filterMap
      (lineRule unicode))
    have hkept := List.length_filterMap_le (lineRule unicode)
      (endedLines (table.mappings.map Mapping.text))
    rw [hsame] at hle
    rw [endedLines_length] at hkept
    have hlength : (InputTable.new ((endedLines (table.mappings.map Mapping.text)).filterMap
        (lineRule unicode))).mappings.length = ((endedLines (table.mappings.map
          Mapping.text)).filterMap (lineRule unicode)).length := by
      rw [hsame]
      exact Nat.le_antisymm hle hkept
    have hrules := new_mappings_of_length hlength
    have hrelated := forall₂_of_filterMap (hrules.symm.trans hsame)
      (endedLines_length table.mappings).le
    obtain ⟨hearlier, hlast⟩ := (endedLines_load_iff table.mappings).mp hrelated
    have hreturn : ∀ rule ∈ table.mappings.dropLast, rule.valueText.getLast? ≠ some '\r' := by
      intro rule hin hends
      have hmem := List.dropLast_subset _ hin
      exact stripped_not_loaded (hkeys rule hmem) (hloaded rule hmem).2 hends (hearlier rule hin)
    refine ⟨fun rule hin => ?_, hreturn⟩
    refine (loads_text_iff (hkeys rule hin) (hloaded rule hin).1 (hloaded rule hin).2).mp ?_
    have hne : table.mappings ≠ [] := List.ne_nil_of_mem hin
    rw [← List.dropLast_append_getLast hne, List.mem_append, List.mem_singleton] at hin
    cases hin with
    | inl hbefore =>
      have hkeep := hearlier rule hbefore
      rwa [stripReturn, if_neg fun hends => hreturn rule hbefore ((text_getLast? rule).mp hends)]
        at hkeep
    | inr hend => exact hend ▸ hlast _ (List.getLast?_eq_some_getLast hne)
  · rintro ⟨hrules, hreturn⟩
    have hlines := lines_intercalate fun rule hin => hbreak (hrules rule hin).plain
    rw [← htext] at hlines
    have hload : ∀ rule ∈ table.mappings, lineRule unicode rule.text = some rule :=
      fun rule hin => (loads_text_iff (hkeys rule hin) (hrules rule hin).filled
        (hrules rule hin).plain).mpr (hrules rule hin)
    have hearlier : ∀ rule ∈ table.mappings.dropLast,
        lineRule unicode (stripReturn rule.text) = some rule := by
      intro rule hin
      have hends : ¬rule.text.getLast? = some '\r' :=
        fun hends => hreturn rule hin ((text_getLast? rule).mp hends)
      rw [stripReturn, if_neg hends]
      exact hload rule (List.dropLast_subset _ hin)
    have hlast : ∀ rule ∈ table.mappings.getLast?, lineRule unicode rule.text = some rule :=
      fun rule hin => hload rule (List.mem_of_getLast? hin)
    have hrelated := (endedLines_load_iff table.mappings).mpr ⟨hearlier, hlast⟩
    have hsame : (InputTable.fromCustomTsv unicode text).mappings = table.mappings := by
      rw [InputTable.fromCustomTsv, hlines, filterMap_of_forall₂ hrelated]
      exact InputTable.new_mappings table.keys_nodup
    exact ⟨hsame, hagain hsame⟩

/-- Rules with tokens and a key whose value has the same token: exported as they were loaded. -/
theorem export_any_character :
    (InputTable.fromCustomTsv .kana
      "ka\tか\nn\x7bany character\x7d\tん\x7bany character\x7d".toList).toCustomTsv =
        .ok "ka\tか\nn\x7bany character\x7d\tん\x7bany character\x7d".toList ∧
    ∀ rule ∈ (InputTable.fromCustomTsv .kana
      "ka\tか\nn\x7bany character\x7d\tん\x7bany character\x7d".toList).mappings,
        rule.Exportable .kana := by
  have hexport : (InputTable.fromCustomTsv .kana
      "ka\tか\nn\x7bany character\x7d\tん\x7bany character\x7d".toList).toCustomTsv =
        .ok "ka\tか\nn\x7bany character\x7d\tん\x7bany character\x7d".toList := by
    decide +kernel
  exact ⟨hexport, ((export_round_trips_iff hexport).mp (by decide +kernel)).1⟩

/-- A value that ends with a carriage return is loaded, and exported without an escape. -/
theorem carriage_return_not_exported : ¬∀ (table : InputTable) (text : Text),
    table.toCustomTsv = .ok text →
      (InputTable.fromCustomTsv .kana text).mappings = table.mappings ∧
        (InputTable.fromCustomTsv .kana text).toCustomTsv = .ok text := by
  intro h
  have hloaded := h (InputTable.fromCustomTsv .kana "a\tx\r\r\nb\ty".toList)
    "a\tx\r\nb\ty".toList (by decide +kernel)
  exact absurd hloaded.1 (by decide +kernel)

end BeanKey.Input
