import BeanKey.Library.Loop
import BeanKey.Zenz.Conversion

/-! What an evaluation says of the single tokens: up to where it ended, each one that was not
addressed already was the model's best or came through with its learned priority. -/
namespace BeanKey.Zenz
open BeanKey.Lattice hiding Candidate
open Packing Asking
open Session (Candidate ConversionSession)

section
variable {F : Type} (unicode : UnicodeTable) (arithmetic : Arithmetic F)
  (model : ZenzLanguageModel F)

/-! ### One evaluation -/

structure TokenReview (F : Type) where
  promptTokens : List Token
  tokens : List Token
  addressed : Nat
  priorities : List F
  logits : List F

namespace TokenReview
variable (review : TokenReview F) (reuses : Bool) (request : ZenzEvaluationRequest F)

/-- The prompt, the candidate's tokens and the model's logits are those of the request. -/
structure Of : Prop where
  promptTokens : tokenizeForModel model (request.prompt unicode) true = .ok review.promptTokens
  tokens : tokenizeForModel model (request.candidateText unicode) false = .ok review.tokens
  addressed : ∃ count, addressedTokenCount unicode model reuses request = .ok count ∧
    review.addressed = min count review.tokens.length
  priorities : learnedTokenPriorities unicode arithmetic model request.candidate review.tokens =
    .ok review.priorities
  logits : review.addressed < review.tokens.length →
    model.logitsForSuffix (review.promptTokens ++ review.tokens.dropLast)
      (review.promptTokens.length - 1 + review.addressed) = .ok review.logits

def row (index : Nat) : List F :=
  evaluatedRow arithmetic model request.personalization review.logits review.tokens
    review.addressed index

def verdict (index : Nat) : TokenVerdict :=
  tokenVerdict arithmetic model (review.row arithmetic model request index)
    (review.priorities.getD index arithmetic.zero) (review.tokens.getD index 0).toNat

/-- Every token up to `stop` that is not addressed is accepted. -/
def AcceptsTo (stop : Nat) : Prop :=
  ∀ index, review.addressed ≤ index → index < stop →
    review.verdict arithmetic model request index = .best ∨
      review.verdict arithmetic model request index = .prioritized

/-- Where the evaluation ended: behind all tokens, or at one for which the model had a better one,
or at which it had the end of the text. -/
def Ends : CandidateEvaluation F → Prop
  | .pass _ _ => review.AcceptsTo arithmetic model request review.tokens.length
  | .fixRequired bytes =>
    ∃ index < review.tokens.length, review.addressed ≤ index ∧
      review.AcceptsTo arithmetic model request index ∧
      ∃ before piece, tokenPieces model (review.tokens.take index) = .ok before ∧
        pieceOfIndex model (strictArgmax arithmetic (review.row arithmetic model request index)) =
          .ok piece ∧ bytes = before ++ piece
  | .wholeResult text =>
    ∃ index < review.tokens.length, review.addressed ≤ index ∧
      review.AcceptsTo arithmetic model request index ∧
      tokenOfIndex (strictArgmax arithmetic (review.row arithmetic model request index)) =
        some model.eosToken ∧
      ∃ before, tokenPieces model (review.tokens.take index) = .ok before ∧
        text = (fromUtf8 before).getD []

end TokenReview

variable {unicode arithmetic model}

theorem tokenPieces_concat {tokens : List Token} {token : Token} {pieces piece : Bytes}
    (htokens : tokenPieces model tokens = .ok pieces)
    (htoken : model.tokenToPiece token = .ok piece) :
    tokenPieces model (tokens ++ [token]) = .ok (pieces ++ piece) := by
  induction tokens generalizing pieces with
  | nil =>
    cases htokens
    simp [tokenPieces, htoken, pure, Except.pure, bind, Except.bind]
  | cons first rest ih =>
    simp only [List.cons_append, tokenPieces, bind, Except.bind, pure, Except.pure] at htokens ⊢
    split at htokens
    · cases htokens
    · next firstPiece hfirst =>
      split at htokens
      · cases htokens
      · next restPieces hrest =>
        cases htokens
        rw [ih hrest]
        simp

theorem tokenVerdict_endOfText {row : List F} {priority : F} {token : Nat}
    (h : tokenVerdict arithmetic model row priority token = .endOfText) :
    tokenOfIndex (strictArgmax arithmetic row) = some model.eosToken := by
  unfold tokenVerdict at h
  grind

/-- The loop over the tokens from `index` on. -/
theorem reviewTokens_ends (review : TokenReview F) {request : ZenzEvaluationRequest F}
    {index : Nat} {rest : List Token} {state : ReviewState F} {result : CandidateEvaluation F}
    (hrest : review.tokens.drop index = rest) (hle : review.addressed ≤ index)
    (hpieces : tokenPieces model (review.tokens.take index) = .ok state.candidatePrefix)
    (haccepted : review.AcceptsTo arithmetic model request index)
    (h : reviewTokens arithmetic model request.requestRichCandidates request.personalization
      review.logits review.priorities review.tokens review.addressed index rest state =
        .ok result) :
    review.Ends arithmetic model request result := by
  induction rest generalizing index state with
  | nil =>
    cases h
    intro other haddressed hlt
    have hlength := List.drop_eq_nil_iff.mp hrest
    exact haccepted other haddressed (by omega)
  | cons token rest ih =>
    have hlt : index < review.tokens.length := by
      by_contra hnot
      rw [List.drop_eq_nil_of_le (by omega)] at hrest
      cases hrest
    have htoken : review.tokens[index] = token := by
      rw [List.drop_eq_getElem_cons hlt] at hrest
      exact (List.cons.inj hrest).1
    have hnext : review.tokens.drop (index + 1) = rest := by
      rw [List.drop_eq_getElem_cons hlt] at hrest
      exact (List.cons.inj hrest).2
    have hverdict : review.verdict arithmetic model request index =
        tokenVerdict arithmetic model (review.row arithmetic model request index)
          (review.priorities.getD index arithmetic.zero) token.toNat := by
      have hget : review.tokens.getD index 0 = token := by
        rw [List.getD_eq_getElem?_getD, List.getElem?_eq_getElem hlt, Option.getD_some, htoken]
      rw [TokenReview.verdict, hget]
    have hstep : ∀ {piece : Bytes}, model.tokenToPiece token = .ok piece →
        review.verdict arithmetic model request index = .best ∨
          review.verdict arithmetic model request index = .prioritized →
        tokenPieces model (review.tokens.take (index + 1)) = .ok (state.candidatePrefix ++ piece) ∧
          review.AcceptsTo arithmetic model request (index + 1) := by
      intro piece hpiece haccept
      constructor
      · rw [List.take_succ_eq_append_getElem hlt, htoken]
        exact tokenPieces_concat hpieces hpiece
      · intro other haddressed hother
        rcases Nat.lt_succ_iff_lt_or_eq.mp hother with hbefore | rfl
        · exact haccepted other haddressed hbefore
        · exact haccept
    have hgoOn : ∀ alternatives : Except ZenzInferenceError (List (AlternativeConstraint F)),
        review.verdict arithmetic model request index = .best ∨
          review.verdict arithmetic model request index = .prioritized →
        (alternatives.bind fun alternatives => (model.tokenToPiece token).bind fun piece =>
          reviewTokens arithmetic model request.requestRichCandidates request.personalization
            review.logits review.priorities review.tokens review.addressed (index + 1) rest
            { candidatePrefix := state.candidatePrefix ++ piece
              score := arithmetic.add state.score ((review.row arithmetic model request index).getD
                (strictArgmax arithmetic (review.row arithmetic model request index))
                arithmetic.zero)
              alternatives := state.alternatives ++ alternatives }) = .ok result →
        review.Ends arithmetic model request result := by
      intro alternatives haccept hrun
      cases alternatives with
      | error error => cases hrun
      | ok alternatives =>
        cases hpiece : model.tokenToPiece token with
        | error error =>
          rw [hpiece] at hrun
          cases hrun
        | ok piece =>
          rw [hpiece] at hrun
          obtain ⟨hmore, haccepts⟩ := hstep hpiece haccept
          exact ih hnext (Nat.le_succ_of_le hle) hmore haccepts hrun
    rw [reviewTokens] at h
    simp only [bind, Except.bind, pure, Except.pure, throw, throwThe, MonadExceptOf.throw] at h
    split at h
    · cases h
    · rw [TokenReview.row] at hverdict
      rw [← hverdict] at h
      cases hfound : review.verdict arithmetic model request index with
      | endOfText =>
        rw [hfound] at h
        cases h
        rw [hverdict] at hfound
        exact ⟨index, hlt, hle, haccepted, tokenVerdict_endOfText hfound, _, hpieces, rfl⟩
      | rejected =>
        rw [hfound] at h
        dsimp only at h
        split at h
        · cases h
        · next piece hpiece =>
          cases h
          exact ⟨index, hlt, hle, haccepted, _, piece, hpieces, hpiece, rfl⟩
      | best =>
        rw [hfound] at h
        dsimp only at h
        split at h
        · exact hgoOn _ (.inl hfound) h
        · exact hgoOn (.ok []) (.inl hfound) h
      | prioritized =>
        rw [hfound] at h
        dsimp only at h
        split at h
        · exact hgoOn _ (.inr hfound) h
        · exact hgoOn (.ok []) (.inr hfound) h

/-- An evaluation without caches, once the tokens of the prompt are known. -/
theorem evaluateCandidateTokens_ends {request : ZenzEvaluationRequest F}
    {promptTokens tokens : List Token} {count : Nat} {result : CandidateEvaluation F}
    (htokens : tokenizeForModel model (request.candidateText unicode) false = .ok tokens)
    (h : evaluateCandidateTokens unicode arithmetic model request promptTokens
      (request.candidateText unicode) count = .ok result) :
    ∃ priorities logits,
      learnedTokenPriorities unicode arithmetic model request.candidate tokens = .ok priorities ∧
      (min count tokens.length < tokens.length →
        model.logitsForSuffix (promptTokens ++ tokens.dropLast)
          (promptTokens.length - 1 + min count tokens.length) = .ok logits) ∧
      (⟨promptTokens, tokens, min count tokens.length, priorities, logits⟩ :
        TokenReview F).Ends arithmetic model request result := by
  rw [evaluateCandidateTokens] at h
  obtain ⟨found, hfound, h⟩ := Loop.bind_eq_ok.mp h
  obtain rfl : tokens = found := Except.ok.inj (htokens.symm.trans hfound)
  obtain ⟨priorities, hpriorities, h⟩ := Loop.bind_eq_ok.mp h
  obtain ⟨pieces, hpieces, h⟩ := Loop.bind_eq_ok.mp h
  have hall : tokens.length ≤ min count tokens.length →
      (⟨promptTokens, tokens, min count tokens.length, priorities, []⟩ :
        TokenReview F).Ends arithmetic model request (.pass arithmetic.zero []) := by
    intro hle index haddressed hlt
    exact absurd hlt (not_lt.mpr (hle.trans haddressed))
  dsimp only at h
  split at h
  · next hempty =>
    have hle : tokens.length ≤ min count tokens.length := by simp [List.isEmpty_iff.mp hempty]
    cases h
    exact ⟨priorities, [], hpriorities, fun hlt => absurd hlt (not_lt.mpr hle), hall hle⟩
  · split at h
    · cases h
    · split at h
      · next hsame =>
        cases h
        exact ⟨priorities, [], hpriorities, fun hlt => absurd hlt hsame.not_lt, hall hsame.ge⟩
      · obtain ⟨logits, hlogits, h⟩ := Loop.bind_eq_ok.mp h
        refine ⟨priorities, logits, hpriorities, fun _ => hlogits, ?_⟩
        split at h
        · cases h
        · split at h
          · cases h
          · refine reviewTokens_ends _ rfl le_rfl hpieces ?_ h
            intro index haddressed hlt
            exact absurd hlt (not_lt.mpr haddressed)

theorem evaluateUncachedAsIs_ends {reuses : Bool} {request : ZenzEvaluationRequest F}
    {result : CandidateEvaluation F}
    (h : evaluateUncachedAsIs unicode arithmetic model reuses request = .ok result) :
    ∃ review : TokenReview F, review.Of unicode arithmetic model reuses request ∧
      review.Ends arithmetic model request result := by
  obtain ⟨promptTokens, hprompt, h⟩ := Loop.bind_eq_ok.mp h
  obtain ⟨count, hcount, h⟩ := Loop.bind_eq_ok.mp h
  have htokens : ∃ tokens, tokenizeForModel model (request.candidateText unicode) false =
      .ok tokens := by
    obtain ⟨tokens, htokens, -⟩ := Loop.bind_eq_ok.mp h
    exact ⟨tokens, htokens⟩
  obtain ⟨tokens, htokens⟩ := htokens
  obtain ⟨priorities, logits, hpriorities, hlogits, hends⟩ :=
    evaluateCandidateTokens_ends htokens h
  exact ⟨_, ⟨hprompt, htokens, ⟨count, hcount, rfl⟩, hpriorities, hlogits⟩, hends⟩

end

end BeanKey.Zenz
