import BeanKey.LmTypo.Scorer
import BeanKey.Library.Loop

/-! What the scorer returns, by what its caches hold afterwards. -/
namespace BeanKey.LmTypo
open BeanKey.Input BeanKey.Zenz Caching Packing

section
variable {σ F : Type} [Field F] [LinearOrder F] (unicode : UnicodeTable) (functions : Functions F)
  (model : LanguageModel σ F)

/-! ### What the caches hold -/

/-- Every distribution comes from logits that the model returned behind the prompt, and every proxy
from the distribution and the first tokens of its key. -/
structure Sourced (scorer : LmScorer σ F) : Prop where
  distribution : ∀ tokens probabilities, scorer.distributionCache tokens = some probabilities →
    ∃ state state' logits,
      model.nextLogits (scorer.promptTokens ++ tokens) state = .ok (logits, state') ∧
        probabilities = logProbabilities functions logits
  proxy : ∀ tokens pending score, scorer.pendingScoreCache (tokens, pending) = some score →
    ∃ firstTokens probabilities, scorer.pendingTokenCache pending = some firstTokens ∧
      scorer.distributionCache tokens = some probabilities ∧
      firstTokensScore functions firstTokens probabilities = some score

structure Later (scorer later : LmScorer σ F) : Prop where
  prompt : later.promptTokens = scorer.promptTokens
  distributions : Extends scorer.distributionCache later.distributionCache
  firstTokens : Extends scorer.pendingTokenCache later.pendingTokenCache
  proxies : Extends scorer.pendingScoreCache later.pendingScoreCache
  sourced : Sourced functions model scorer → Sourced functions model later

theorem Later.refl (scorer : LmScorer σ F) : Later functions model scorer scorer :=
  ⟨rfl, Extends.refl _, Extends.refl _, Extends.refl _, id⟩

theorem Later.trans {first second third : LmScorer σ F} (h : Later functions model first second)
    (h' : Later functions model second third) : Later functions model first third where
  prompt := h'.prompt.trans h.prompt
  distributions := h.distributions.trans h'.distributions
  firstTokens := h.firstTokens.trans h'.firstTokens
  proxies := h.proxies.trans h'.proxies
  sourced := h'.sourced ∘ h.sourced

instance : Std.Refl (Later functions model) := ⟨Later.refl functions model⟩

instance : IsTrans (LmScorer σ F) (Later functions model) :=
  ⟨fun _ _ _ => Later.trans functions model⟩

/-- The sum of the log-probabilities of the tokens, each under those before it. -/
def emittedScore (distributions : Cache (List Token) (List F)) : List Token → List Token → Option F
  | _, [] => some 0
  | before, token :: rest => do
    let probability ← probabilityOf (← distributions before) token
    let score ← emittedScore distributions (before ++ [token]) rest
    return probability + score

def pendingProxy (scorer : LmScorer σ F) (emittedTokens : List Token) (pending : Text) : Option F :=
  if pending = [] then some 0 else scorer.pendingScoreCache (emittedTokens, pending)

variable {unicode functions model} {scorer later : LmScorer σ F}

theorem LmScorer.new_sourced {state : σ} {prompt : Text}
    (h : LmScorer.new model state prompt = .ok scorer) : Sourced functions model scorer := by
  obtain ⟨answer, -, hscorer⟩ := Loop.bind_eq_ok.mp h
  cases hscorer
  constructor
  · intro tokens probabilities hcached
    cases hcached
  · intro tokens pending score hcached
    cases hcached

omit [LinearOrder F] in
theorem emittedScore_cons {distributions : Cache (List Token) (List F)} {before rest : List Token}
    {token : Token} {score : F} :
    emittedScore distributions before (token :: rest) = some score ↔
      ∃ probabilities probability restScore, distributions before = some probabilities ∧
        probabilityOf probabilities token = some probability ∧
        emittedScore distributions (before ++ [token]) rest = some restScore ∧
        probability + restScore = score := by
  simp [emittedScore, Option.bind_eq_some_iff]

theorem emittedScore_later (h : Later functions model scorer later) {before tokens : List Token}
    {score : F} (hscore : emittedScore scorer.distributionCache before tokens = some score) :
    emittedScore later.distributionCache before tokens = some score := by
  induction tokens generalizing before score with
  | nil => exact hscore
  | cons token rest ih =>
    obtain ⟨probabilities, probability, restScore, hcached, hprobability, hrest, hsum⟩ :=
      emittedScore_cons.mp hscore
    exact emittedScore_cons.mpr ⟨probabilities, probability, restScore,
      h.distributions _ _ hcached, hprobability, ih hrest, hsum⟩

omit [LinearOrder F] in
theorem emittedScore_append {distributions : Cache (List Token) (List F)}
    {before tokens more : List Token} {score moreScore : F}
    (h : emittedScore distributions before tokens = some score)
    (hmore : emittedScore distributions (before ++ tokens) more = some moreScore) :
    emittedScore distributions before (tokens ++ more) = some (score + moreScore) := by
  induction tokens generalizing before score with
  | nil =>
    obtain rfl : 0 = score := Option.some.inj h
    simpa using hmore
  | cons token rest ih =>
    obtain ⟨probabilities, probability, restScore, hcached, hprobability, hrest, rfl⟩ :=
      emittedScore_cons.mp h
    have hmore' : emittedScore distributions (before ++ [token] ++ rest) more = some moreScore := by
      simpa using hmore
    exact emittedScore_cons.mpr ⟨probabilities, probability, restScore + moreScore, hcached,
      hprobability, ih hrest hmore', (add_assoc _ _ _).symm⟩

theorem pendingProxy_later (h : Later functions model scorer later) {emittedTokens : List Token}
    {pending : Text} {score : F} (hscore : pendingProxy scorer emittedTokens pending = some score) :
    pendingProxy later emittedTokens pending = some score := by
  unfold pendingProxy at hscore ⊢
  by_cases hpending : pending = []
  · rwa [if_pos hpending] at hscore ⊢
  · rw [if_neg hpending] at hscore ⊢
    exact h.proxies _ _ hscore

/-! ### What each call returns -/

structure SamePending (scorer later : LmScorer σ F) : Prop where
  firstTokens : later.pendingTokenCache = scorer.pendingTokenCache
  proxies : later.pendingScoreCache = scorer.pendingScoreCache

omit [Field F] [LinearOrder F] in
theorem SamePending.trans {first second third : LmScorer σ F} (h : SamePending first second)
    (h' : SamePending second third) : SamePending first third :=
  ⟨h'.firstTokens.trans h.firstTokens, h'.proxies.trans h.proxies⟩

/-- A call of the model changes the model alone. -/
theorem callModel_yields {α : Type} (call : σ → Except ZenzInferenceError (α × σ)) :
    Yields (Later functions model) (callModel call) (fun answer last =>
      (∃ state', call scorer.model = .ok (answer, state')) ∧ last =
      { scorer with model := last.model })
      scorer := by
  intro answer last hrun
  unfold callModel at hrun
  cases hcall : call scorer.model with
  | error error =>
    rw [hcall] at hrun
    cases hrun
  | ok result =>
    rw [hcall] at hrun
    cases hrun
    exact ⟨⟨rfl, Extends.refl _, Extends.refl _, Extends.refl _,
      fun h => ⟨h.distribution, h.proxy⟩⟩,
      ⟨_, rfl⟩, rfl⟩

theorem tokenize_yields (text : Text) :
    Yields (Later functions model) (tokenize model text) (fun _ last => SamePending scorer last)
      scorer := by
  apply Yields.get_bind
  split
  · exact Yields.pure ⟨rfl, rfl⟩
  · apply Yields.bind (callModel_yields _)
    rintro tokens last - ⟨-, hlast⟩
    apply Yields.modify_bind
    · exact ⟨rfl, Extends.refl _, Extends.refl _, Extends.refl _,
        fun h => ⟨h.distribution, h.proxy⟩⟩
    · rw [hlast]
      exact Yields.pure ⟨rfl, rfl⟩

theorem nextLogProbabilities_yields (emittedTokens : List Token) :
    Yields (Later functions model) (nextLogProbabilities functions model emittedTokens)
      (fun probabilities last => last.distributionCache emittedTokens = some probabilities ∧
        SamePending scorer last) scorer := by
  apply Yields.get_bind
  split
  · next probabilities hcached => exact Yields.pure ⟨hcached, rfl, rfl⟩
  · next hmissing =>
    apply Yields.get_bind
    apply Yields.bind (callModel_yields _)
    rintro logits last - ⟨⟨state', hlogits⟩, hlast⟩
    have hmissing' : last.distributionCache emittedTokens = none := by
      rw [hlast]
      exact hmissing
    have hsame : SamePending scorer last := by
      rw [hlast]
      exact ⟨rfl, rfl⟩
    apply Yields.get_bind
    split
    · exact Yields.throw _
    · apply Yields.modify_bind
      · refine ⟨rfl, extends_insert hmissing' _, Extends.refl _, Extends.refl _, fun h => ?_⟩
        constructor
        · intro tokens probabilities hcached
          cases insert_eq_some hcached with
          | inl hnew =>
            obtain ⟨rfl, rfl⟩ := hnew
            rw [hlast]
            exact ⟨_, state', logits, hlogits, rfl⟩
          | inr hold => exact h.distribution tokens probabilities hold
        · intro tokens pending score hcached
          obtain ⟨firstTokens, probabilities, hfirst, hdistribution, hscore⟩ :=
            h.proxy tokens pending score hcached
          exact ⟨firstTokens, probabilities, hfirst, extends_insert hmissing' _ _ _ hdistribution,
            hscore⟩
      · exact Yields.pure ⟨insert_self _, hsame.firstTokens, hsame.proxies⟩

theorem scoreTokens_yields (tokens : List Token) (score : F) (rest : List Token) :
    Yields (Later functions model) (scoreTokens functions model tokens score rest)
      (fun result last => ∀ all total, result = some (all, total) → all = tokens ++ rest ∧
        ∃ gain, emittedScore last.distributionCache tokens rest = some gain ∧ total = score + gain)
      scorer := by
  induction rest generalizing tokens score scorer with
  | nil =>
    apply Yields.pure
    rintro all total hresult
    cases hresult
    exact ⟨(List.append_nil _).symm, 0, rfl, (add_zero _).symm⟩
  | cons token rest ih =>
    apply Yields.bind (nextLogProbabilities_yields tokens)
    rintro probabilities middle - ⟨hcached, -⟩
    split
    · exact Yields.pure fun all total h => by cases h
    · next probability hprobability =>
      apply (ih (tokens ++ [token]) (score + probability)).mono
      intro result last hlast hresult all total heq
      obtain ⟨hall, gain, hgain, htotal⟩ := hresult all total heq
      refine ⟨by simpa using hall, probability + gain, ?_, by rw [htotal, add_assoc]⟩
      exact emittedScore_cons.mpr ⟨probabilities, probability, gain,
        hlast.distributions _ _ hcached, hprobability, hgain, rfl⟩

theorem appendAndScore_yields (emittedTokens : List Token) (appendText : Text) :
    Yields (Later functions model) (appendAndScore functions model emittedTokens appendText)
      (fun result last => ∀ all gain, result = some (all, gain) →
        ∃ appended, all = emittedTokens ++ appended ∧
          emittedScore last.distributionCache emittedTokens appended = some gain) scorer := by
  apply Yields.bind (tokenize_yields appendText)
  intro appended middle _ _
  apply (scoreTokens_yields emittedTokens 0 appended).mono
  intro result last _ hresult all gain heq
  obtain ⟨hall, gain', hgain, htotal⟩ := hresult all gain heq
  exact ⟨appended, hall, by rw [htotal, zero_add, hgain]⟩

theorem collectCharacters_yields (count : Nat) (result : List Grapheme) (tokenIds : List Nat) :
    Yields (Later functions model) (collectCharacters unicode model count result tokenIds)
      (fun _ _ => True) scorer := by
  induction tokenIds generalizing result scorer with
  | nil => exact Yields.pure trivial
  | cons tokenId rest ih =>
    unfold collectCharacters
    split
    · exact ih result
    · next token _ =>
      have hask : Yields (Later functions model) (askPiece model token)
          (fun _ _ => True) scorer := by
        intro answer last hrun
        cases hrun
        exact ⟨⟨rfl, Extends.refl _, Extends.refl _, Extends.refl _,
          fun h => ⟨h.distribution, h.proxy⟩⟩, trivial⟩
      apply Yields.bind hask
      intro answer middle _ _
      split
      · exact ih result
      · split
        · split
          · exact ih result
          · split
            · exact Yields.pure trivial
            · exact ih _
        · exact ih result

theorem topCharacters_yields (emittedTokens : List Token) (count : Nat) :
    Yields (Later functions model) (topCharacters unicode functions model emittedTokens count)
      (fun _ _ => True) scorer := by
  unfold topCharacters
  split
  · exact Yields.pure trivial
  · apply Yields.bind (nextLogProbabilities_yields emittedTokens)
    intro probabilities middle _ _
    exact collectCharacters_yields count [] _

theorem collectFirstTokens_yields (tokens : List Token) (displays : List Text) :
    Yields (Later functions model) (collectFirstTokens unicode model tokens displays)
      (fun _ last => SamePending scorer last) scorer := by
  induction displays generalizing tokens scorer with
  | nil => exact Yields.pure ⟨rfl, rfl⟩
  | cons display rest ih =>
    unfold collectFirstTokens
    split
    · exact ih tokens
    · apply Yields.bind (tokenize_yields _)
      intro encoded middle _ hsame
      split
      · exact (ih _).mono fun _ _ _ h => hsame.trans h
      · exact (ih tokens).mono fun _ _ _ h => hsame.trans h

theorem pendingFirstTokens_yields (pending : Text) (table : InputTable) :
    Yields (Later functions model) (pendingFirstTokens unicode model pending table)
      (fun firstTokens last => last.pendingTokenCache pending = some firstTokens ∧
        last.pendingScoreCache = scorer.pendingScoreCache) scorer := by
  apply Yields.get_bind
  split
  · next tokens hcached => exact Yields.pure ⟨hcached, rfl⟩
  · next hmissing =>
    apply Yields.bind (collectFirstTokens_yields [] _)
    rintro tokens last - hsame
    have hmissing' : last.pendingTokenCache pending = none := by
      rw [hsame.firstTokens, hmissing]
    apply Yields.modify_bind
    · refine ⟨rfl, Extends.refl _, extends_insert hmissing' _, Extends.refl _, fun h => ?_⟩
      refine ⟨h.distribution, fun emittedTokens other score hcached => ?_⟩
      obtain ⟨firstTokens, probabilities, hfirst, hrest⟩ :=
        h.proxy emittedTokens other score hcached
      exact ⟨firstTokens, probabilities, extends_insert hmissing' _ _ _ hfirst, hrest⟩
    · exact Yields.pure ⟨insert_self _, hsame.proxies⟩

theorem pendingProxyLogProbability_yields (pending : Text) (emittedTokens : List Token)
    (table : Option InputTable) :
    Yields (Later functions model)
      (pendingProxyLogProbability unicode functions model pending emittedTokens table)
      (fun result last => ∀ proxy, result = some proxy →
        pendingProxy last emittedTokens pending = some proxy) scorer := by
  unfold pendingProxyLogProbability
  split
  · next hpending =>
      exact Yields.pure fun proxy hproxy => by rw [pendingProxy, if_pos hpending, hproxy]
  · next hpending =>
    have hshown : ∀ last : LmScorer σ F, pendingProxy last emittedTokens pending =
        last.pendingScoreCache (emittedTokens, pending) := fun last => if_neg hpending
    split
    · exact Yields.pure fun proxy hproxy => by cases hproxy
    · next table =>
      apply Yields.get_bind
      split
      · next score hcached =>
        exact Yields.pure fun proxy hproxy => by rw [hshown, hcached, hproxy]
      · next hmissing =>
        apply Yields.bind (pendingFirstTokens_yields pending table)
        rintro firstTokens middle - ⟨hfirst, hproxies⟩
        split
        · exact Yields.pure fun proxy hproxy => by cases hproxy
        · apply Yields.bind (nextLogProbabilities_yields emittedTokens)
          rintro probabilities last - ⟨hdistribution, hsame⟩
          split
          · exact Yields.pure fun proxy hproxy => by cases hproxy
          · next score hscore =>
            have hmissing' : last.pendingScoreCache (emittedTokens, pending) = none := by
              rw [hsame.proxies, hproxies, hmissing]
            apply Yields.modify_bind
            · refine ⟨rfl, Extends.refl _, Extends.refl _, extends_insert hmissing' _, fun h => ?_⟩
              refine ⟨h.distribution, fun tokens other found hcached => ?_⟩
              cases insert_eq_some hcached with
              | inl hnew =>
                obtain ⟨hkey, rfl⟩ := hnew
                obtain ⟨rfl, rfl⟩ := Prod.mk.inj hkey
                exact ⟨firstTokens,
                  probabilities, by rw [← hfirst]; exact congrFun hsame.firstTokens _,
                  hdistribution, hscore⟩
              | inr hold => exact h.proxy tokens other found hold
            · refine Yields.pure fun proxy hproxy => ?_
              rw [hshown]
              exact (insert_self score).trans hproxy

end

end BeanKey.LmTypo
