import BeanKey.Library.Backoff
import BeanKey.Library.Bytes
import BeanKey.Library.Loop
import Mathlib.Tactic.IntervalCases

/-! The n-gram model: counts out of four tries, interpolated from the longest context down. -/
namespace BeanKey.Zenz
open Packing

def vocabularySize : Nat := 6000
def startToken : Nat := 2
def keyValueDelimiter : UInt8 := 128
def predictiveDelimiter : UInt8 := 129
def encodingRadix : Nat := 126

inductive NGramError where
  | searchTrie
  | invalidTrieEntry
  | countOverflow
  deriving DecidableEq

/-- A trie, by the entries it finds that begin with a query. -/
structure MarisaTrie where
  search : Bytes → Except NGramError (List Bytes)

/-- Values are exact rationals; `open` refuses a smaller `n`. -/
structure EfficientNGram where
  n : Nat
  discount : ℚ
  cAbc : MarisaTrie
  uAbx : MarisaTrie
  uXbc : MarisaTrie
  rXbx : MarisaTrie
  valid : 2 ≤ n

/-! ### Entries of the tries -/

section
variable (size : Nat)

/-- The bytes of a token are its digits in radix 126, each one more. -/
def encodeKey : List Nat → Except NGramError Bytes
  | [] => .ok []
  | token :: key => do
    if size ≤ token then throw .invalidTrieEntry
    let rest ← encodeKey key
    return UInt8.ofNat (token / encodingRadix + 1) ::
      UInt8.ofNat (token % encodingRadix + 1) :: rest

def decodeToken (high low : UInt8) : Except NGramError Nat :=
  if high = 0 ∨ low = 0 then .error .invalidTrieEntry
  else
    let token := (high.toNat - 1) * encodingRadix + (low.toNat - 1)
    if token < size then .ok token else .error .invalidTrieEntry

def decodeDigits : Nat → Bytes → Except NGramError Nat
  | decoded, [] => .ok decoded
  | decoded, byte :: rest =>
    if byte = 0 then .error .invalidTrieEntry
    else if 2 ^ 32 ≤ decoded * encodingRadix + (byte.toNat - 1) then .error .countOverflow
    else decodeDigits (decoded * encodingRadix + (byte.toNat - 1)) rest

def decodeValue (value : Bytes) : Except NGramError Nat :=
  if value.length < 5 then .error .invalidTrieEntry else decodeDigits 0 (value.take 5)

def MarisaTrie.getValue (trie : MarisaTrie) (key : List Nat) : Except NGramError (Option Nat) := do
  let query := (← encodeKey size key) ++ [keyValueDelimiter]
  match ← trie.search query with
  | [] => return none
  | entry :: _ => return some (← decodeValue (entry.drop query.length))

/-- The token that an entry counts, and its count; entries of longer contexts are passed over. -/
def decodeEntry (query entry : Bytes) : Except NGramError (Option (Nat × Nat)) :=
  if entry.length < query.length then .error .invalidTrieEntry
  else
    match entry.drop query.length with
    | high :: low :: delimiter :: value =>
      if value.length < 5 ∨ delimiter ≠ keyValueDelimiter then .ok none
      else do
        let token ← decodeToken size high low
        let value ← decodeValue value
        return some (token, value)
    | _ => .ok none

def collectValues (query : Bytes) :
    List Bytes → List Nat → Nat → Except NGramError (List Nat × Nat)
  | [], values, sum => .ok (values, sum)
  | entry :: entries, values, sum => do
    match ← decodeEntry size query entry with
    | none => collectValues query entries values sum
    | some (token, value) =>
      if 2 ^ 32 ≤ sum + value then throw .countOverflow
      collectValues query entries (values.set token value) (sum + value)

def MarisaTrie.bulkValues (trie : MarisaTrie) (context : List Nat) :
    Except NGramError (List Nat × Nat) := do
  let query := (← encodeKey size context) ++ [predictiveDelimiter]
  collectValues size query (← trie.search query) (List.replicate size 0) 0

/-! ### Probabilities -/

/-- `none` where the divisor is zero. -/
def divide (dividend divisor : ℚ) : Option ℚ :=
  if divisor = 0 then none else some (dividend / divisor)

/-- The counts, their sum and the number of distinct neighbours for every context shorter than the
main one. -/
def lowerOrders (ngram : EfficientNGram) :
    Nat → List Nat → Except NGramError (List (List Nat × Nat × Nat))
  | 0, _ => .ok []
  | remaining + 1, context => do
    let context := context.tail
    let distinctPredecessors := (← ngram.rXbx.getValue size context).getD 0
    let (continuationCounts, continuationTotal) ← ngram.uXbc.bulkValues size context
    let lower ← lowerOrders ngram remaining context
    return (continuationCounts, continuationTotal, distinctPredecessors) :: lower

def denominator (total : Nat) : Option ℚ := if total ≠ 0 then some total else none

def gammaOf (discount : ℚ) (denominator : Option ℚ) (distinct : Nat) : Option ℚ :=
  match denominator with
  | none => some 1
  | some denominator => divide (discount * distinct) denominator

def alphaOf (discount : ℚ) (denominator : Option ℚ) (count : Nat) : Option ℚ :=
  match denominator with
  | none => some 0
  | some denominator => divide (max (count - discount) 0) denominator

def prepareLower (discount : ℚ) :
    List (List Nat × Nat × Nat) → Option (List (List Nat × Option ℚ × ℚ))
  | [] => some []
  | (values, total, distinct) :: lower => do
    let gamma ← gammaOf discount (denominator total) distinct
    let prepared ← prepareLower discount lower
    return (values, denominator total, gamma) :: prepared

def lowerProbability (discount : ℚ) (token : Nat) :
    List (List Nat × Option ℚ × ℚ) → ℚ → ℚ → Option (ℚ × ℚ)
  | [], probability, coefficient => some (probability, coefficient)
  | (values, denominator, gamma) :: prepared, probability, coefficient => do
    let lowerAlpha ← alphaOf discount denominator (values.getD token 0)
    lowerProbability discount token prepared (probability + lowerAlpha * coefficient)
      (coefficient * gamma)

def tokenProbability (discount : ℚ) (counts : List Nat) (mainDenominator : Option ℚ)
    (mainGamma : ℚ) (prepared : List (List Nat × Option ℚ × ℚ)) (token : Nat) : Option ℚ := do
  let alpha ← alphaOf discount mainDenominator (counts.getD token 0)
  let (lower, coefficient) ← lowerProbability discount token prepared 0 1
  let uniform ← divide coefficient size
  return alpha + mainGamma * (lower + uniform)

/-- The last `n - 1` tokens, behind as many start tokens as are missing. -/
def contextOf (n : Nat) (history : List Nat) : List Nat :=
  let contextSize := n - 1
  if contextSize ≤ history.length then history.drop (history.length - contextSize)
  else List.replicate (contextSize - history.length) startToken ++ history

/-- The inner option is `none` where a division by zero happens. -/
def EfficientNGram.bulkPredict (ngram : EfficientNGram) (history : List Nat) :
    Except NGramError (Option (List ℚ)) := do
  let context := contextOf ngram.n history
  let uniqueContinuations := (← ngram.uAbx.getValue size context).getD 0
  let (counts, totalCount) ← ngram.cAbc.bulkValues size context
  let lower ← lowerOrders size ngram (ngram.n - 1 - 1) context
  return do
    let mainDenominator := denominator totalCount
    let mainGamma ← gammaOf ngram.discount mainDenominator uniqueContinuations
    let prepared ← prepareLower ngram.discount lower
    (List.range size).mapM
      (tokenProbability size ngram.discount counts mainDenominator mainGamma prepared)

end

def EfficientNGram.probabilities (ngram : EfficientNGram) (history : List Int) :
    Except NGramError (Option (List ℚ)) :=
  if ∀ token ∈ history, 0 ≤ token ∧ token.toNat < vocabularySize then
    ngram.bulkPredict vocabularySize (history.map Int.toNat)
  else .error .invalidTrieEntry

/-! ### Tables that agree -/

section
variable {size : Nat}

def countedTokens (size : Nat) (query : Bytes) (entries : List Bytes) : List Nat :=
  entries.filterMap fun entry =>
    match decodeEntry size query entry with
    | .ok (some (token, _)) => some token
    | _ => none

structure Tallied (size : Nat) (counts neighbours : MarisaTrie) (context : List Nat) : Prop where
  once : ∀ key entries, encodeKey size context = .ok key →
    counts.search (key ++ [predictiveDelimiter]) = .ok entries →
    (countedTokens size (key ++ [predictiveDelimiter]) entries).Nodup
  distinct : ∀ values total found, counts.bulkValues size context = .ok (values, total) →
    neighbours.getValue size context = .ok found →
    found.getD 0 = ((Finset.range size).filter fun token => values.getD token 0 ≠ 0).card

/-- The tables of neighbours agree with the counts, for every context that is looked up. -/
structure EfficientNGram.Consistent (size : Nat) (ngram : EfficientNGram) : Prop where
  main : ∀ context, context.length = ngram.n - 1 → Tallied size ngram.cAbc ngram.uAbx context
  lower : ∀ context, 0 < context.length → context.length < ngram.n - 1 →
    Tallied size ngram.uXbc ngram.rXbx context

theorem decodeToken_lt {high low : UInt8} {token : Nat}
    (h : decodeToken size high low = .ok token) :
    token < size := by
  unfold decodeToken at h
  split at h
  · cases h
  · dsimp only at h
    split at h
    · next hlt =>
      rw [Except.ok.injEq] at h
      exact h ▸ hlt
    · cases h

theorem decodeEntry_lt {query entry : Bytes} {token value : Nat}
    (h : decodeEntry size query entry = .ok (some (token, value))) : token < size := by
  unfold decodeEntry at h
  split at h
  · cases h
  · split at h
    · next high low delimiter rest _ =>
      split at h
      · cases h
      · obtain ⟨found, htoken, hrest⟩ := Loop.bind_eq_ok.mp h
        obtain ⟨decoded, -, hresult⟩ := Loop.bind_eq_ok.mp hrest
        cases hresult
        exact decodeToken_lt htoken
    · cases h

theorem sum_set_of_zero {values : List Nat} {token : Nat} (hlt : token < values.length)
    (hzero : values.getD token 0 = 0) (value : Nat) :
    (values.set token value).sum = values.sum + value := by
  induction values generalizing token with
  | nil => exact absurd hlt (Nat.not_lt_zero _)
  | cons first values ih =>
    cases token with
    | zero =>
      obtain rfl : first = 0 := by simpa using hzero
      rw [List.set_cons_zero, List.sum_cons, List.sum_cons]
      omega
    | succ token =>
      have hrest := ih (Nat.lt_of_succ_lt_succ hlt) (by simpa using hzero)
      rw [List.set_cons_succ, List.sum_cons, List.sum_cons, hrest]
      omega

theorem sum_range_getD (values : List Nat) :
    ∑ token ∈ Finset.range values.length, values.getD token 0 = values.sum := by
  induction values with
  | nil => rfl
  | cons first values ih =>
    rw [List.length_cons, Finset.sum_range_succ', List.sum_cons, Nat.add_comm]
    congr 1

/-- Where no token is counted twice, the sum is the sum of the counts. -/
theorem collectValues_sum {query : Bytes} {entries : List Bytes} {values counts : List Nat}
    {sum total : Nat} (h : collectValues size query entries values sum = .ok (counts, total))
    (hlength : values.length = size) (hnodup : (countedTokens size query entries).Nodup)
    (hfresh : ∀ token ∈ countedTokens size query entries, values.getD token 0 = 0) :
    counts.length = size ∧ counts.sum + sum = values.sum + total := by
  induction entries generalizing values sum with
  | nil =>
    rw [collectValues, Except.ok.injEq, Prod.mk.injEq] at h
    obtain ⟨rfl, rfl⟩ := h
    exact ⟨hlength, rfl⟩
  | cons entry entries ih =>
    unfold collectValues at h
    obtain ⟨found, hentry, h⟩ := Loop.bind_eq_ok.mp h
    cases found with
    | none =>
      have hsame : countedTokens size query (entry :: entries) =
          countedTokens size query entries := by
        simp [countedTokens, hentry]
      rw [hsame] at hnodup hfresh
      exact ih h hlength hnodup hfresh
    | some counted =>
      obtain ⟨token, value⟩ := counted
      dsimp only at h
      have hmore : countedTokens size query (entry :: entries) =
          token :: countedTokens size query entries := by
        simp [countedTokens, hentry]
      rw [hmore] at hnodup hfresh
      obtain ⟨hnew, hnodup⟩ := List.nodup_cons.mp hnodup
      split at h
      · cases h
      · have hlt : token < values.length := by
          rw [hlength]
          exact decodeEntry_lt hentry
        have hset := sum_set_of_zero hlt (hfresh token List.mem_cons_self) value
        have hrest : ∀ other ∈ countedTokens size query entries,
            (values.set token value).getD other 0 = 0 := by
          intro other hother
          have hne : token ≠ other := fun heq => hnew (heq ▸ hother)
          have hold := hfresh other (List.mem_cons_of_mem _ hother)
          rw [List.getD_eq_getElem?_getD] at hold ⊢
          rw [List.getElem?_set_ne hne]
          exact hold
        obtain ⟨hcounts, hsum⟩ := ih h (by rw [List.length_set, hlength]) hnodup hrest
        refine ⟨hcounts, ?_⟩
        rw [hset] at hsum
        omega

theorem Tallied.sum {counts neighbours : MarisaTrie} {context : List Nat}
    (h : Tallied size counts neighbours context) {values : List Nat} {total : Nat}
    (hvalues : counts.bulkValues size context = .ok (values, total)) :
    total = ∑ token ∈ Finset.range size, values.getD token 0 := by
  unfold MarisaTrie.bulkValues at hvalues
  obtain ⟨key, hkey, hvalues⟩ := Loop.bind_eq_ok.mp hvalues
  obtain ⟨entries, hsearch, hvalues⟩ := Loop.bind_eq_ok.mp hvalues
  obtain ⟨hlength, hsum⟩ := collectValues_sum hvalues List.length_replicate
    (h.once key entries hkey hsearch) fun token _ => by
      rw [List.getD_eq_getElem?_getD, List.getElem?_replicate]
      split <;> rfl
  rw [← hlength, sum_range_getD]
  simpa using hsum.symm

/-! ### The orders as a mixture -/

def levelOf (discount : ℚ) (order : List Nat × Nat × Nat) : Backoff.Level Nat ℚ :=
  Backoff.discounted (fun token => order.1.getD token 0) discount order.2.1 order.2.2

theorem divide_eq {dividend divisor : ℚ} (h : divisor ≠ 0) :
    divide dividend divisor = some (dividend / divisor) :=
  if_neg h

theorem gammaOf_eq (discount : ℚ) (order : List Nat × Nat × Nat) :
    gammaOf discount (denominator order.2.1) order.2.2 = some (levelOf discount order).gamma := by
  unfold gammaOf denominator levelOf Backoff.discounted
  by_cases hnone : order.2.1 = 0
  · simp [hnone]
  · simp [hnone, divide_eq (Nat.cast_ne_zero.mpr hnone)]

theorem alphaOf_eq (discount : ℚ) (order : List Nat × Nat × Nat) (token : Nat) :
    alphaOf discount (denominator order.2.1) (order.1.getD token 0) =
      some ((levelOf discount order).alpha token) := by
  unfold alphaOf denominator levelOf Backoff.discounted
  by_cases hnone : order.2.1 = 0
  · simp [hnone]
  · simp [hnone, divide_eq (Nat.cast_ne_zero.mpr hnone)]

def preparedOf (discount : ℚ) (order : List Nat × Nat × Nat) : List Nat × Option ℚ × ℚ :=
  (order.1, denominator order.2.1, (levelOf discount order).gamma)

theorem prepareLower_eq (discount : ℚ) (lower : List (List Nat × Nat × Nat)) :
    prepareLower discount lower = some (lower.map (preparedOf discount)) := by
  induction lower with
  | nil => rfl
  | cons order lower ih =>
    obtain ⟨values, total, distinct⟩ := order
    have hgamma := gammaOf_eq discount (values, total, distinct)
    simp only at hgamma
    simp [prepareLower, hgamma, ih, preparedOf]

theorem lowerProbability_eq (discount : ℚ) (token : Nat) (lower : List (List Nat × Nat × Nat))
    (probability coefficient : ℚ) :
    lowerProbability discount token (lower.map (preparedOf discount)) probability coefficient =
      some ((lower.map (levelOf discount)).foldl (fun (probability, coefficient) level =>
        (probability + level.alpha token * coefficient, coefficient * level.gamma))
        (probability, coefficient)) := by
  induction lower generalizing probability coefficient with
  | nil => rfl
  | cons order lower ih =>
    rw [List.map_cons, List.map_cons, List.foldl_cons, ← ih, preparedOf, lowerProbability,
      alphaOf_eq]
    rfl

theorem tokenProbability_eq (hsize : 0 < size) (discount : ℚ) (order : List Nat × Nat × Nat)
    (lower : List (List Nat × Nat × Nat)) (token : Nat) :
    tokenProbability size discount order.1 (denominator order.2.1) (levelOf discount order).gamma
        (lower.map (preparedOf discount)) token =
      some (Backoff.mixture (1 / (size : ℚ)) ((order :: lower).map (levelOf discount)) token) := by
  have hpos : (size : ℚ) ≠ 0 := Nat.cast_ne_zero.mpr hsize.ne'
  have hfold := Backoff.foldl_eq_mixture (1 / (size : ℚ)) (lower.map (levelOf discount)) token 0 1
  rw [tokenProbability, alphaOf_eq, lowerProbability_eq]
  generalize (lower.map (levelOf discount)).foldl _ _ = gathered at hfold ⊢
  obtain ⟨probability, coefficient⟩ := gathered
  simp only [zero_add, one_mul, mul_one_div] at hfold
  simp [divide_eq hpos, Backoff.mixture, hfold]

section
variable {ngram : EfficientNGram}

/-- Counts are whole numbers, so each that is there is at least a discount of at most one. -/
theorem levelOf_balanced {counts neighbours : MarisaTrie} {context : List Nat}
    (h : Tallied size counts neighbours context) {discount : ℚ} (hzero : 0 ≤ discount)
    (hone : discount ≤ 1) {values : List Nat} {total : Nat} {found : Option Nat}
    (hvalues : counts.bulkValues size context = .ok (values, total))
    (hfound : neighbours.getValue size context = .ok found) :
    (levelOf discount (values, total, found.getD 0)).Balanced (Finset.range size) := by
  apply Backoff.discounted_balanced hzero
  · intro token hcount
    exact hone.trans (Nat.one_le_cast.mpr (Nat.one_le_iff_ne_zero.mpr hcount))
  · exact h.sum hvalues
  · exact h.distinct values total found hvalues hfound

theorem lowerOrders_balanced (hconsistent : ngram.Consistent size) (hzero : 0 ≤ ngram.discount)
    (hone : ngram.discount ≤ 1) {remaining : Nat} {context : List Nat}
    {lower : List (List Nat × Nat × Nat)}
    (h : lowerOrders size ngram remaining context = .ok lower)
    (hlength : context.length = remaining + 1) (hshort : remaining < ngram.n - 1) :
    ∀ order ∈ lower, (levelOf ngram.discount order).Balanced (Finset.range size) := by
  induction remaining generalizing context lower with
  | zero =>
    rw [lowerOrders, Except.ok.injEq] at h
    simp [← h]
  | succ remaining ih =>
    have htail : context.tail.length = remaining + 1 := by
      rw [List.length_tail, hlength]
      omega
    have htallied := hconsistent.lower context.tail (by omega) (by omega)
    rw [lowerOrders] at h
    obtain ⟨found, hfound, h⟩ := Loop.bind_eq_ok.mp h
    obtain ⟨⟨values, total⟩, hvalues, h⟩ := Loop.bind_eq_ok.mp h
    obtain ⟨rest, hrest, h⟩ := Loop.bind_eq_ok.mp h
    cases h
    intro order hin
    cases hin with
    | head => exact levelOf_balanced htallied hzero hone hvalues hfound
    | tail _ hin => exact ih hrest htail (by omega) order hin

theorem contextOf_length (history : List Nat) :
    (contextOf ngram.n history).length = ngram.n - 1 := by
  unfold contextOf
  dsimp only
  split
  · rw [List.length_drop]
    omega
  · rw [List.length_append, List.length_replicate]
    omega

/-- Whatever the context, nothing is divided by zero, and the probabilities are a distribution over
the vocabulary. -/
theorem bulkPredict_distribution (hsize : 0 < size) (ngram : EfficientNGram)
    (hzero : 0 ≤ ngram.discount) (hone : ngram.discount ≤ 1) (hconsistent : ngram.Consistent size)
    (history : List Nat) {result : Option (List ℚ)}
    (h : ngram.bulkPredict size history = .ok result) :
    ∃ probabilities, result = some probabilities ∧ probabilities.length = size ∧
      (∀ probability ∈ probabilities, 0 ≤ probability) ∧ probabilities.sum = 1 := by
  have hcontext : (contextOf ngram.n history).length = ngram.n - 1 := contextOf_length history
  have htallied := hconsistent.main _ hcontext
  have hvalid := ngram.valid
  unfold EfficientNGram.bulkPredict at h
  obtain ⟨found, hfound, h⟩ := Loop.bind_eq_ok.mp h
  obtain ⟨⟨values, total⟩, hvalues, h⟩ := Loop.bind_eq_ok.mp h
  obtain ⟨lower, hlower, h⟩ := Loop.bind_eq_ok.mp h
  have hbalanced : ∀ level ∈ ((values, total, found.getD 0) :: lower).map
      (levelOf ngram.discount), level.Balanced (Finset.range size) := by
    intro level hlevel
    obtain ⟨order, hin, rfl⟩ := List.mem_map.mp hlevel
    cases hin with
    | head => exact levelOf_balanced htallied hzero hone hvalues hfound
    | tail _ hin =>
      exact lowerOrders_balanced hconsistent hzero hone hlower (by omega) (by omega) order hin
  have hgamma := gammaOf_eq ngram.discount (values, total, found.getD 0)
  have htokens := tokenProbability_eq hsize ngram.discount (values, total, found.getD 0) lower
  have hbase : ((Finset.range size).card : ℚ) * (1 / size) = 1 := by
    rw [Finset.card_range, mul_one_div_cancel (Nat.cast_ne_zero.mpr hsize.ne')]
  refine ⟨(List.range size).map (Backoff.mixture (1 / (size : ℚ))
    (((values, total, found.getD 0) :: lower).map (levelOf ngram.discount))), ?_, ?_, ?_, ?_⟩
  · simp only [pure, Except.pure, Except.ok.injEq] at h
    rw [← h]
    simp only at hgamma htokens
    simp only [hgamma, prepareLower_eq, Option.bind_eq_bind, Option.bind_some]
    rw [funext htokens]
    exact List.mapM_pure
  · rw [List.length_map, List.length_range]
  · intro probability hin
    obtain ⟨token, htoken, rfl⟩ := List.mem_map.mp hin
    exact Backoff.mixture_nonneg (by positivity) hbalanced token
      (Finset.mem_range.mpr (List.mem_range.mp htoken))
  · have hsum := Backoff.mixture_sum hbase hbalanced
    rwa [Finset.sum_eq_multiset_sum, Finset.range_val, Multiset.range, Multiset.map_coe,
      Multiset.sum_coe] at hsum

end

def trieOf (keys : List Bytes) : MarisaTrie where
  search query := .ok (keys.filter fun key => query.isPrefixOf key)

/-- Three tokens; behind the start tokens, token 0 was seen twice and token 1 once. -/
def threeTokens : EfficientNGram where
  n := 3
  discount := 1 / 2
  cAbc := trieOf
    [[1, 3, 1, 3, 129, 1, 1, 128, 1, 1, 1, 1, 3], [1, 3, 1, 3, 129, 1, 2, 128, 1, 1, 1, 1, 2]]
  uAbx := trieOf [[1, 3, 1, 3, 128, 1, 1, 1, 1, 3]]
  uXbc := trieOf [[1, 3, 129, 1, 1, 128, 1, 1, 1, 1, 2]]
  rXbx := trieOf [[1, 3, 128, 1, 1, 1, 1, 2]]
  valid := by decide

theorem encodeKey_outside {key : List Nat} (h : ¬ ∀ token ∈ key, token < size) :
    encodeKey size key = .error .invalidTrieEntry := by
  induction key with
  | nil => exact absurd (by simp) h
  | cons token key ih =>
    rw [encodeKey]
    by_cases hin : size ≤ token
    · rw [if_pos hin]
      rfl
    · have hrest : ¬ ∀ token ∈ key, token < size := by
        intro hall
        apply h
        intro other hother
        cases hother with
        | head => exact Nat.not_le.mp hin
        | tail _ hother => exact hall other hother
      rw [if_neg hin, ih hrest]
      rfl

/-- Tables may be checked context by context. -/
theorem tallied_of_key {counts neighbours : MarisaTrie} {context : List Nat} {key : Bytes}
    (hkey : encodeKey size context = .ok key) {entries : List Bytes}
    (hentries : counts.search (key ++ [predictiveDelimiter]) = .ok entries)
    (honce : (countedTokens size (key ++ [predictiveDelimiter]) entries).Nodup)
    {values : List Nat} {total : Nat}
    (hvalues : counts.bulkValues size context = .ok (values, total))
    {found : Option Nat} (hfound : neighbours.getValue size context = .ok found)
    (hdistinct : found.getD 0 =
      ((Finset.range size).filter fun token => values.getD token 0 ≠ 0).card) :
    Tallied size counts neighbours context where
  once other others hother hothers := by
    rw [hkey, Except.ok.injEq] at hother
    subst hother
    rw [hentries, Except.ok.injEq] at hothers
    exact hothers ▸ honce
  distinct others sum other hothers hother := by
    rw [hvalues, Except.ok.injEq, Prod.mk.injEq] at hothers
    rw [hfound, Except.ok.injEq] at hother
    rw [← hothers.1, ← hother]
    exact hdistinct

theorem tallied_of_error {counts neighbours : MarisaTrie} {context : List Nat} {error : NGramError}
    (hkey : encodeKey size context = .error error) : Tallied size counts neighbours context where
  once key entries hother := by
    rw [hkey] at hother
    cases hother
  distinct values total found hvalues := by
    unfold MarisaTrie.bulkValues at hvalues
    simp [hkey, bind, Except.bind] at hvalues

theorem threeTokens_consistent : threeTokens.Consistent 3 := by
  constructor
  · intro context hcontext
    obtain ⟨first, second, rfl⟩ := List.length_eq_two.mp hcontext
    by_cases hinside : first < 3 ∧ second < 3
    · obtain ⟨hfirst, hsecond⟩ := hinside
      interval_cases first <;> interval_cases second <;>
        exact tallied_of_key rfl rfl (by decide) rfl rfl (by decide)
    · exact tallied_of_error (encodeKey_outside (by simpa using hinside))
  · intro context hpos hlt
    have hone : context.length = 1 := by
      have htwo : threeTokens.n - 1 = 2 := rfl
      omega
    obtain ⟨token, rfl⟩ := List.length_eq_one_iff.mp hone
    by_cases hinside : token < 3
    · interval_cases token <;> exact tallied_of_key rfl rfl (by decide) rfl rfl (by decide)
    · exact tallied_of_error (encodeKey_outside (by simpa using hinside))

theorem bulkPredict_distribution_threeTokens :
    ∃ probabilities, threeTokens.bulkPredict 3 [] = .ok (some probabilities) ∧
      (∀ probability ∈ probabilities, 0 ≤ probability) ∧ probabilities.sum = 1 := by
  obtain ⟨result, hresult⟩ : ∃ result, threeTokens.bulkPredict 3 [] = .ok result := ⟨_, rfl⟩
  obtain ⟨probabilities, rfl, -, hnonneg, hsum⟩ := bulkPredict_distribution (by decide) threeTokens
    (by decide +kernel) (by decide +kernel) threeTokens_consistent [] hresult
  exact ⟨probabilities, hresult, hnonneg, hsum⟩

end

end BeanKey.Zenz
