import BeanKey.Lattice.Entry
import BeanKey.Input.Composing

/-! The readings a mistyped beginning of the input may have been meant to give. -/
namespace BeanKey.Lattice
open Input

structure TypoPrefix where
  ruby : Text
  consumed : Nat
  penalty : ℚ
  deriving DecidableEq

def maximumPenalty : ℚ := 21 / 2

def directReplacements (element : InputElement) : List (Text × ℚ) :=
  if element.inputStyle ≠ .direct then []
  else
    match element.piece with
    | .character value =>
      match toKatakana value with
      | ['カ'] => [(['ガ'], 7)]
      | ['キ'] => [(['ギ'], 7 / 2)]
      | ['ク'] => [(['グ'], 7 / 2)]
      | ['ケ'] => [(['ゲ'], 7 / 2)]
      | ['コ'] => [(['ゴ'], 7 / 2)]
      | ['サ'] => [(['ザ'], 7 / 2)]
      | ['シ'] => [(['ジ'], 7 / 2)]
      | ['ス'] => [(['ズ'], 7 / 2)]
      | ['セ'] => [(['ゼ'], 7 / 2)]
      | ['ソ'] => [(['ゾ'], 7 / 2)]
      | ['タ'] => [(['ダ'], 6)]
      | ['チ'] => [(['ヂ'], 7 / 2)]
      | ['ツ'] => [(['ッ'], 6), (['ヅ'], 9 / 2)]
      | ['テ'] => [(['デ'], 6)]
      | ['ト'] => [(['ド'], 9 / 2)]
      | ['ハ'] => [(['バ'], 9 / 2), (['パ'], 6)]
      | ['ヒ'] => [(['ビ'], 7 / 2), (['ピ'], 9 / 2)]
      | ['フ'] => [(['ブ'], 7 / 2), (['プ'], 9 / 2)]
      | ['ヘ'] => [(['ベ'], 7 / 2), (['ペ'], 9 / 2)]
      | ['ホ'] => [(['ボ'], 7 / 2), (['ポ'], 9 / 2)]
      | ['バ'] => [(['パ'], 7 / 2)]
      | ['ビ'] => [(['ピ'], 7 / 2)]
      | ['ブ'] => [(['プ'], 7 / 2)]
      | ['ベ'] => [(['ペ'], 7 / 2)]
      | ['ボ'] => [(['ポ'], 7 / 2)]
      | ['ヤ'] => [(['ャ'], 7 / 2)]
      | ['ユ'] => [(['ュ'], 7 / 2)]
      | ['ヨ'] => [(['ョ'], 7 / 2)]
      | _ => []
    | _ => []

def isRoman (element : InputElement) : Bool :=
  element.inputStyle = .romanToKana || element.inputStyle = .mapped .defaultRomanToKana

def romanReplacement (first second : InputElement) : Option Text :=
  if isRoman first && isRoman second then
    match first.piece, second.piece with
    | .character first, .character second =>
      match first ++ second with
      | ['b', 's'] => some ['b', 'a']
      | ['n', 'o'] => some ['b', 'o']
      | ['l', 'i'] => some ['k', 'i']
      | ['l', 'o'] => some ['k', 'o']
      | ['l', 'u'] => some ['k', 'u']
      | ['m', 'y'] => some ['m', 'u']
      | ['t', 'p'] => some ['t', 'o']
      | ['t', 's'] => some ['t', 'a']
      | ['w', 'i'] => some ['w', 'o']
      | ['p', 'u'] => some ['o', 'u']
      | _ => none
    | _, _ => none
  else none

def render (tables : InputTableRegistry) (elements : List InputElement) : Text :=
  (ComposingText.new.insert tables elements).surfaceText

/-- The next key does not change what the elements show. -/
def isStablePrefix (tables : InputTableRegistry) (remaining elements : List InputElement) : Bool :=
  match remaining with
  | [] => true
  | next :: _ => (render tables elements).isPrefixOf (render tables (elements ++ [next]))

/-- The found readings, with the least penalty of each. -/
abbrev TypoPenalties := List ((Text × Nat) × ℚ)

def TypoPenalties.insert (output : TypoPenalties) (key : Text × Nat) (penalty : ℚ) :
    TypoPenalties :=
  if key ∈ output.map Prod.fst then
    output.map fun entry => if entry.1 = key then (key, min entry.2 penalty) else entry
  else output ++ [(key, penalty)]

def enumerate (unicode : UnicodeTable) (tables : InputTableRegistry) (maximumLength : Nat) :
    List InputElement → Nat → ℚ → Bool → List InputElement → TypoPenalties → TypoPenalties
  | remaining, consumed, penalty, changed, elements, output =>
    let ruby := toKatakana (render tables elements)
    let rubyCount := (graphemes unicode ruby).length
    let recorded := 0 < consumed && changed
    let output :=
      if recorded && rubyCount ≤ maximumLength && isStablePrefix tables remaining elements then
        output.insert (ruby, consumed) penalty
      else output
    if recorded && maximumLength ≤ rubyCount then output
    else if maximumLength ≤ consumed then output
    else
      match remaining with
      | [] => output
      | element :: rest =>
        let output := enumerate unicode tables maximumLength rest (consumed + 1) penalty changed
          (elements ++ [element]) output
        if maximumPenalty ≤ penalty then output
        else
          let output := (directReplacements element).foldl (fun output (replacement, weight) =>
            enumerate unicode tables maximumLength rest (consumed + 1) (penalty + weight) true
              (elements ++ [.character replacement .direct]) output) output
          match rest with
          | [] => output
          | next :: rest =>
            match romanReplacement element next with
            | some replacement =>
              enumerate unicode tables maximumLength rest (consumed + 2) (penalty + 7 / 2) true
                (elements ++ replacement.map fun character =>
                  .character [character] .romanToKana) output
            | none => output

def typoPrefixes (unicode : UnicodeTable) (order : HashOrder) (input : List InputElement)
    (tables : InputTableRegistry) (maximumLength : Nat) : List TypoPrefix :=
  (order.arrange input.length (enumerate unicode tables maximumLength input 0 0 false [] [])).map
    fun ((ruby, consumed), penalty) => { ruby, consumed, penalty }

/-! ### What the prefixes consume -/

/-- Every reading recorded so far consumes a beginning of an input of `total` elements. -/
def Consumes (total : Nat) (output : TypoPenalties) : Prop :=
  ∀ entry ∈ output, 0 < entry.1.2 ∧ entry.1.2 ≤ total

theorem Consumes.insert {total : Nat} {output : TypoPenalties} (h : Consumes total output)
    {key : Text × Nat} (hkey : 0 < key.2 ∧ key.2 ≤ total) (penalty : ℚ) :
    Consumes total (output.insert key penalty) := by
  intro entry hentry
  unfold TypoPenalties.insert at hentry
  by_cases hmem : key ∈ output.map Prod.fst
  · rw [if_pos hmem] at hentry
    obtain ⟨old, hold, rfl⟩ := List.mem_map.mp hentry
    by_cases he : old.1 = key
    · simpa [he] using hkey
    · simpa [he] using h old hold
  · rw [if_neg hmem] at hentry
    obtain hin | hnew := List.mem_append.mp hentry
    · exact h entry hin
    · rw [List.mem_singleton.mp hnew]
      exact hkey

theorem enumerate_consumes (unicode : UnicodeTable) (tables : InputTableRegistry)
    (maximumLength total : Nat) (remaining : List InputElement) (consumed : Nat) (penalty : ℚ)
    (changed : Bool) (elements : List InputElement) (output : TypoPenalties)
    (htotal : consumed + remaining.length = total) (h : Consumes total output) :
    Consumes total (enumerate unicode tables maximumLength remaining consumed penalty changed
      elements output) := by
  induction hn : remaining.length using Nat.strong_induction_on
    generalizing remaining consumed penalty changed elements output with
  | _ n ih =>
    subst hn
    rw [enumerate.eq_def]
    simp only
    generalize houtput : (if (decide (0 < consumed) && changed &&
      decide ((graphemes unicode (toKatakana (render tables elements))).length ≤ maximumLength) &&
        isStablePrefix tables remaining elements) = true then
      output.insert (toKatakana (render tables elements), consumed) penalty else output) = recorded
    have hrecorded : Consumes total recorded := by
      rw [← houtput]
      split
      · next hguard =>
        simp only [Bool.and_eq_true, decide_eq_true_eq] at hguard
        exact h.insert ⟨hguard.1.1.1, by simp only; omega⟩ penalty
      · exact h
    split
    · exact hrecorded
    · split
      · exact hrecorded
      · cases remaining with
        | nil => exact hrecorded
        | cons element rest =>
          simp only [List.length_cons] at htotal ih
          have hcopied := ih rest.length (by omega) rest (consumed + 1) penalty changed
            (elements ++ [element]) recorded (by omega) hrecorded rfl
          simp only
          split
          · exact hcopied
          · have hreplaced : ∀ (replacements : List (Text × ℚ)) (output : TypoPenalties),
                Consumes total output →
                Consumes total (replacements.foldl (fun output (replacement, weight) =>
                  enumerate unicode tables maximumLength rest (consumed + 1) (penalty + weight) true
                    (elements ++ [.character replacement .direct]) output) output) := by
              intro replacements
              induction replacements with
              | nil => exact fun _ h => h
              | cons replacement replacements ihr =>
                intro output houtput
                exact ihr _ (ih rest.length (by omega) rest _ _ _ _ _ (by omega) houtput rfl)
            have hdirect := hreplaced (directReplacements element) _ hcopied
            cases rest with
            | nil => exact hdirect
            | cons next rest =>
              simp only [List.length_cons] at htotal ih
              simp only
              cases romanReplacement element next with
              | none => exact hdirect
              | some replacement =>
                exact ih rest.length (by omega) rest _ _ _ _ _ (by omega) hdirect rfl

theorem typoPrefixes_consumed (unicode : UnicodeTable) (order : HashOrder)
    (input : List InputElement) (tables : InputTableRegistry) (maximumLength : Nat)
    {found : TypoPrefix} (h : found ∈ typoPrefixes unicode order input tables maximumLength) :
    0 < found.consumed ∧ found.consumed ≤ input.length := by
  obtain ⟨⟨⟨ruby, consumed⟩, penalty⟩, hmem, rfl⟩ := List.mem_map.mp h
  exact enumerate_consumes unicode tables maximumLength input.length input 0 0 false [] []
    (by omega) (by simp [Consumes]) _ ((order.perm _ _).mem_iff.mp hmem)

end BeanKey.Lattice
