import BeanKey.LmTypo.Search
import BeanKey.LmTypo.Scored

/-! The books of the typo search: every hypothesis of a beam is a script of edits of the typed keys,
and its scores are the sums of what the edits cost and what the model says of the tokens. -/
namespace BeanKey.LmTypo
open BeanKey.Input BeanKey.Zenz Caching

/-! ### Edits -/

inductive Edit (F : Type) where
  | copy (typed : Text)
  | substitute (typed target : Text) (distance : F)
  | delete (typed : Text) (distance : F)
  | transpose (first second : Text)

namespace Edit
variable {F : Type} [Field F] [LinearOrder F]

def typed : Edit F → List Text
  | .copy typed | .substitute typed _ _ | .delete typed _ => [typed]
  | .transpose first second => [first, second]

def corrected : Edit F → List Text
  | .copy typed => [typed]
  | .substitute _ target _ => [target]
  | .delete _ _ => []
  | .transpose first second => [second, first]

def cost (config : LmTypoConfig F) : Edit F → F
  | .copy _ => 0
  | .substitute _ _ distance => config.substitutionCost * distance
  | .delete _ distance => config.deletionCost * distance
  | .transpose _ _ => config.transpositionCost

/-- Keys are taken for each other, or left out, only next to each other. -/
def Valid (unicode : UnicodeTable) (sqrt : F → F) (topology : Topology) : Edit F → Prop
  | .copy _ => True
  | .substitute typed target distance => (target, distance) ∈ neighbors unicode sqrt typed topology
  | .delete typed distance =>
    ∃ previous, (typed, distance) ∈ neighbors unicode sqrt previous topology
  | .transpose first second => first ≠ second

def copies (keys : List Text) : List (Edit F) := keys.map copy

omit [Field F] [LinearOrder F] in
theorem flatMap_typed_copies (keys : List Text) :
    (copies keys : List (Edit F)).flatMap typed = keys := by
  simp [copies, List.flatMap_map, typed]

omit [Field F] [LinearOrder F] in
theorem flatMap_corrected_copies (keys : List Text) :
    (copies keys : List (Edit F)).flatMap corrected = keys := by
  simp [copies, List.flatMap_map, corrected]

omit [LinearOrder F] in
theorem sum_cost_copies (config : LmTypoConfig F) (keys : List Text) :
    ((copies keys).map (cost config)).sum = 0 := by
  induction keys with
  | nil => rfl
  | cons key rest ih => simpa [copies, cost] using ih

theorem valid_copies {unicode : UnicodeTable} {sqrt : F → F} {topology : Topology}
    (keys : List Text) :
    ∀ edit ∈ (copies keys : List (Edit F)), edit.Valid unicode sqrt topology := by
  intro edit hedit
  obtain ⟨key, -, rfl⟩ := List.mem_map.mp hedit
  trivial

end Edit

section
variable {σ F : Type} [Field F] [LinearOrder F] (unicode : UnicodeTable) (functions : Functions F)
  (model : LanguageModel σ F) (observed : List Text) (mode : GenerationMode)
  (config : LmTypoConfig F)

/-! ### The books -/

structure Script (edits : List (Edit F)) (hypothesis : Hypothesis F) : Prop where
  valid : ∀ edit ∈ edits, edit.Valid unicode functions.sqrt mode.topology
  typed : edits.flatMap Edit.typed = observed.take hypothesis.observedPosition
  corrected : edits.flatMap Edit.corrected = hypothesis.corrected
  cost : (edits.map (Edit.cost config)).sum = hypothesis.channelCost

structure Booked (scorer : LmScorer σ F) (hypothesis : Hypothesis F) : Prop where
  inside : hypothesis.observedPosition ≤ observed.length
  script : ∃ edits, Script unicode functions observed mode config edits hypothesis
  text : hypothesis.corrected.foldl (consume unicode mode.table) ([], []) =
    (hypothesis.emittedText, hypothesis.pending)
  proxy : pendingProxy scorer hypothesis.emittedTokens hypothesis.pending =
    some hypothesis.proxyLogProbability
  lmScore : ∃ emitted, emittedScore scorer.distributionCache [] hypothesis.emittedTokens =
    some emitted ∧
    hypothesis.lmScore = emitted + hypothesis.proxyLogProbability
  score : hypothesis.score = hypothesis.lmScore - hypothesis.channelCost

variable {unicode functions model observed mode config} {scorer last : LmScorer σ F}
  {parent hypothesis : Hypothesis F}

theorem Booked.initial :
    Booked unicode functions observed mode config scorer (Hypothesis.initial (F := F)) where
  inside := Nat.zero_le _
  script := ⟨[], by simp, by simp [Hypothesis.initial], rfl, rfl⟩
  text := rfl
  proxy := rfl
  lmScore := ⟨0, rfl, (add_zero _).symm⟩
  score := (sub_zero _).symm

theorem Booked.later (hlater : Later functions model scorer last)
    (h : Booked unicode functions observed mode config scorer hypothesis) :
    Booked unicode functions observed mode config last hypothesis where
  inside := h.inside
  script := h.script
  text := h.text
  proxy := pendingProxy_later hlater h.proxy
  lmScore := by
    obtain ⟨emitted, hemitted, hsum⟩ := h.lmScore
    exact ⟨emitted, emittedScore_later hlater hemitted, hsum⟩
  score := h.score

omit [LinearOrder F] [Field F] in
theorem foldl_consume (table : Option InputTable) (emitted pending : Text) (keys : List Text) :
    keys.foldl (consume unicode table) (emitted, pending) =
      (emitted ++ (keys.foldl (consume unicode table) ([], pending)).1,
        (keys.foldl (consume unicode table) ([], pending)).2) := by
  induction keys generalizing emitted pending with
  | nil => simp
  | cons key rest ih =>
    rw [List.foldl_cons, List.foldl_cons, consume, consume, ih, ih ([] ++ _)]
    simp

/-- More edits behind a hypothesis: its proxy is taken off once, and the score of the tokens emitted
by the edits and the new proxy are added. -/
theorem Booked.further (h : Booked unicode functions observed mode config scorer parent)
    (hlater : Later functions model scorer last) (more : List (Edit F)) {count : Nat}
    {emitted pending : Text} (appended : List Token) {gain proxy : F} (previousInput : Option Text)
    (hvalid : ∀ edit ∈ more, edit.Valid unicode functions.sqrt mode.topology)
    (hcount : parent.observedPosition + count ≤ observed.length)
    (htyped : more.flatMap Edit.typed = (observed.drop parent.observedPosition).take count)
    (hconsumed : (more.flatMap Edit.corrected).foldl (consume unicode mode.table)
      ([], parent.pending) =
      (emitted, pending))
    (hgain : emittedScore last.distributionCache parent.emittedTokens appended = some gain)
    (hproxy : pendingProxy last (parent.emittedTokens ++ appended) pending = some proxy) :
    Booked unicode functions observed mode config last {
      corrected := parent.corrected ++ more.flatMap Edit.corrected
      emittedText := parent.emittedText ++ emitted
      emittedTokens := parent.emittedTokens ++ appended
      observedPosition := parent.observedPosition + count
      previousInput, pending, proxyLogProbability := proxy
      channelCost := parent.channelCost + (more.map (Edit.cost config)).sum
      lmScore := parent.lmScore - parent.proxyLogProbability + gain + proxy
      score := parent.lmScore - parent.proxyLogProbability + gain + proxy -
        (parent.channelCost + (more.map (Edit.cost config)).sum) } where
  inside := hcount
  script := by
    obtain ⟨edits, hscript⟩ := h.script
    refine ⟨edits ++ more, ?_, ?_, ?_, ?_⟩
    · intro edit hedit
      exact (List.mem_append.mp hedit).elim (hscript.valid edit) (hvalid edit)
    · rw [List.flatMap_append, hscript.typed, htyped, List.take_add]
    · rw [List.flatMap_append, hscript.corrected]
    · rw [List.map_append, List.sum_append, hscript.cost]
  text := by
    rw [List.foldl_append, h.text, foldl_consume, hconsumed]
  proxy := hproxy
  lmScore := by
    obtain ⟨before, hbefore, hsum⟩ := h.lmScore
    refine ⟨before + gain, ?_, ?_⟩
    · exact emittedScore_append (emittedScore_later hlater hbefore) (by simpa using hgain)
    · rw [hsum, add_sub_cancel_right]
  score := rfl

/-! ### One edit -/

/-- What an expansion pushes is booked and stands further on in the input. -/
def Expanded (unicode : UnicodeTable) (functions : Functions F) (observed : List Text)
    (mode : GenerationMode) (config : LmTypoConfig F) (parent : Hypothesis F)
    (children : List (Hypothesis F)) (last : LmScorer σ F) : Prop :=
  ∀ child ∈ children, Booked unicode functions observed mode config last child ∧
    parent.observedPosition < child.observedPosition

theorem pushes_nothing :
    Yields (Later functions model) (pure [] : Scoring σ F (List (Hypothesis F)))
    (Expanded unicode functions observed mode config parent) scorer := by
  apply Yields.pure
  intro child hchild
  cases hchild

theorem Expanded.later {children : List (Hypothesis F)} (hlater : Later functions model scorer last)
    (h : Expanded unicode functions observed mode config parent children scorer) :
    Expanded unicode functions observed mode config parent children last :=
  fun child hchild => ⟨(h child hchild).1.later hlater, (h child hchild).2⟩

theorem Expanded.append {children others : List (Hypothesis F)}
    (h : Expanded unicode functions observed mode config parent children last)
    (h' : Expanded unicode functions observed mode config parent others last) :
    Expanded unicode functions observed mode config parent (children ++ others) last :=
  fun child hchild => (List.mem_append.mp hchild).elim (h child) (h' child)

theorem length_of_take {pos : Nat} {keys : List Text}
    (h : (observed.drop pos).take keys.length = keys)
    (hne : keys ≠ []) : pos + keys.length ≤ observed.length := by
  have hlength := congrArg List.length h
  rw [List.length_take, List.length_drop] at hlength
  have := List.length_pos_iff.mpr hne
  omega

theorem evaluateAdvance_yields (h : Booked unicode functions observed mode config scorer parent)
    (edit : Edit F) {emitted pending : Text}
    (hvalid : edit.Valid unicode functions.sqrt mode.topology)
    (htyped : (observed.drop parent.observedPosition).take edit.typed.length = edit.typed)
    (hconsumed : edit.corrected.foldl (consume unicode mode.table) ([], parent.pending) =
      (emitted, pending)) :
    Yields (Later functions model) (evaluateAdvance unicode functions model mode.table parent
      edit.corrected edit.typed.length (edit.cost config) emitted pending)
      (fun result last => Expanded unicode functions observed mode config parent result.toList last)
      scorer := by
  have hne : edit.typed ≠ [] := by cases edit <;> simp [Edit.typed]
  unfold evaluateAdvance
  split
  · exact Yields.pure fun child hchild => by cases hchild
  · apply Yields.bind (appendAndScore_yields parent.emittedTokens emitted)
    intro scored middle hmiddle hscored
    split
    · exact Yields.pure fun child hchild => by cases hchild
    · next emittedTokens gain =>
      obtain ⟨appended, rfl, hgain⟩ := hscored _ _ rfl
      apply Yields.bind (pendingProxyLogProbability_yields pending _ mode.table)
      intro result last hlast hproxy
      split
      · exact Yields.pure fun child hchild => by cases hchild
      · next proxy =>
        apply Yields.pure
        intro child hchild
        obtain rfl := Option.mem_some_iff.mp (Option.mem_toList.mp hchild)
        have hbooked := h.further (Later.trans _ _ hmiddle hlast) [edit] appended
          edit.corrected.getLast?
          (by simpa using hvalid) (length_of_take htyped hne) (by simpa using htyped.symm)
          (by simpa using hconsumed) (emittedScore_later hlast hgain) (hproxy proxy rfl)
        refine ⟨by simpa using hbooked, ?_⟩
        exact Nat.lt_add_of_pos_right (List.length_pos_iff.mpr hne)

theorem addAdvance_yields (h : Booked unicode functions observed mode config scorer parent)
    (edit : Edit F) (hvalid : edit.Valid unicode functions.sqrt mode.topology)
    (htyped : (observed.drop parent.observedPosition).take edit.typed.length = edit.typed) :
    Yields (Later functions model) (addAdvance unicode functions model observed mode.table parent
      edit.corrected edit.typed.length (edit.cost config))
      (Expanded unicode functions observed mode config parent) scorer := by
  unfold addAdvance
  cases edit.corrected.getLast? with
  | none => exact pushes_nothing
  | some last =>
    dsimp only
    split
    · exact pushes_nothing
    · apply Yields.bind (evaluateAdvance_yields h edit hvalid htyped rfl)
      intro next last _ hnext
      exact Yields.pure hnext

theorem deletion_yields (h : Booked unicode functions observed mode config scorer parent)
    {current : Text}
    (hcurrent : observed[parent.observedPosition]? = some current) :
    Yields (Later functions model)
      (deletion unicode functions model observed mode config parent current)
      (Expanded unicode functions observed mode config parent) scorer := by
  unfold deletion
  dsimp only
  split
  · exact pushes_nothing
  · next distance hdistance =>
    have hnear : ∃ previous, (current, distance) ∈
        neighbors unicode functions.sqrt previous mode.topology := by
      obtain ⟨previous, -, hfound⟩ := Option.bind_eq_some_iff.mp hdistance
      obtain ⟨⟨neighbor, distance'⟩, hin, hsome⟩ := List.exists_of_findSome?_eq_some hfound
      split at hsome
      · next heq =>
        cases hsome
        exact ⟨previous, heq ▸ hin⟩
      · cases hsome
    split
    · next hinside =>
      apply Yields.bind (pendingProxyLogProbability_yields parent.pending _ mode.table)
      intro result last hlast hproxy
      split
      · exact pushes_nothing
      · next proxy =>
        apply Yields.pure
        intro child hchild
        obtain rfl := List.mem_singleton.mp hchild
        have hbooked := h.further hlast [.delete current distance] [] parent.previousInput
          (by simpa [Edit.Valid] using hnear) (Nat.le_of_lt hinside)
          (by simp [Edit.typed, List.take_one, hcurrent]) rfl rfl (by simpa using hproxy proxy rfl)
        refine ⟨by simpa [Edit.corrected, Edit.cost] using hbooked, Nat.lt_succ_self _⟩
    · exact pushes_nothing

theorem transposition_yields (h : Booked unicode functions observed mode config scorer parent)
    {current : Text} (hcurrent : observed[parent.observedPosition]? = some current) :
    Yields (Later functions model)
      (transposition unicode functions model observed mode config parent current)
      (Expanded unicode functions observed mode config parent) scorer := by
  unfold transposition
  split
  · exact pushes_nothing
  · next following hfollowing =>
    split
    · next hne =>
      apply addAdvance_yields h (.transpose current following) hne
      have hdrop : observed.drop (parent.observedPosition + 1) =
          following :: observed.drop (parent.observedPosition + 2) :=
        List.drop_eq_getElem?_toList_append.trans (by rw [hfollowing]; rfl)
      have hdrop' : observed.drop parent.observedPosition =
          current :: observed.drop (parent.observedPosition + 1) :=
        List.drop_eq_getElem?_toList_append.trans (by rw [hcurrent]; rfl)
      rw [hdrop', hdrop]
      rfl
    · exact pushes_nothing

/-- A target is the typed key or a neighbour of it, and costs what the edit does. -/
def IsTarget (unicode : UnicodeTable) (functions : Functions F) (mode : GenerationMode)
    (config : LmTypoConfig F) (current : Text) (target : Text × F) : Prop :=
  ∃ edit : Edit F, edit.Valid unicode functions.sqrt mode.topology ∧ edit.typed = [current] ∧
    edit.corrected = [target.1] ∧ edit.cost config = target.2

theorem isTarget_cons {current : Text} {substitutions : List (Text × F)}
    (h : ∀ substitution ∈ substitutions,
      substitution ∈ neighbors unicode functions.sqrt current mode.topology) :
    ∀ target ∈ (current, 0) :: substitutions.map fun (target, distance) =>
      (target, config.substitutionCost * distance),
      IsTarget unicode functions mode config current target := by
  intro target htarget
  cases List.mem_cons.mp htarget with
  | inl hcopy =>
    rw [hcopy]
    exact ⟨.copy current, trivial, rfl, rfl, rfl⟩
  | inr hsubstitute =>
    obtain ⟨⟨neighbor, distance⟩, hin, rfl⟩ := List.mem_map.mp hsubstitute
    exact ⟨.substitute current neighbor distance, h _ hin, rfl, rfl, rfl⟩

theorem advanceTargets_yields (current : Text) :
    Yields (Later functions model)
      (advanceTargets unicode functions model mode config parent current)
      (fun targets _ => ∀ target ∈ targets, IsTarget unicode functions mode config current target)
      scorer := by
  unfold advanceTargets
  dsimp only
  split
  · apply Yields.bind (topCharacters_yields parent.emittedTokens config.topK)
    intro likely last _ _
    rw [pure_bind]
    exact Yields.pure (isTarget_cons fun substitution hin => List.mem_of_mem_filter hin)
  · exact Yields.pure (isTarget_cons fun substitution hin => hin)

/-- An expansion of a booked hypothesis is booked, and further on in the input. -/
theorem expandHypothesis_yields (h : Booked unicode functions observed mode config scorer parent) :
    Yields (Later functions model)
      (expandHypothesis unicode functions model observed mode config parent)
      (Expanded unicode functions observed mode config parent) scorer := by
  unfold expandHypothesis
  split
  · exact pushes_nothing
  · next current hcurrent =>
    apply Yields.bind (advanceTargets_yields current)
    intro targets first hfirst htargets
    have hadvance : ∀ target ∈ targets, ∀ later, Later functions model first later →
        Yields (Later functions model)
          (addAdvance unicode functions model observed mode.table parent
          [target.1] 1 target.2)
            (Expanded unicode functions observed mode config parent) later := by
      intro target htarget later hlater
      obtain ⟨edit, hvalid, htyped, hcorrected, hcost⟩ := htargets target htarget
      have hedit : Yields (Later functions model)
          (addAdvance unicode functions model observed mode.table
          parent edit.corrected edit.typed.length (edit.cost config))
          (Expanded unicode functions observed mode config parent) later :=
        addAdvance_yields ((h.later hfirst).later hlater) edit hvalid
          (by simp [htyped, List.take_one, hcurrent])
      rwa [htyped, hcorrected, hcost] at hedit
    apply Yields.bind (Yields.collect (fun child _ _ hlater hchild =>
      ⟨hchild.1.later hlater, hchild.2⟩) targets hadvance)
    intro advanced second hsecond hadvanced
    have hbooked := (h.later hfirst).later hsecond
    apply Yields.bind (deletion_yields hbooked hcurrent)
    intro deleted third hthird hdeleted
    apply Yields.bind (transposition_yields (hbooked.later hthird) hcurrent)
    intro transposed fourth hfourth htransposed
    apply Yields.pure
    have hdeleted' := Expanded.later hfourth hdeleted
    have hadvanced' : Expanded unicode functions observed mode config parent
        advanced.flatten fourth :=
      Expanded.later (Later.trans _ _ hthird hfourth) hadvanced
    exact (hadvanced'.append hdeleted').append htransposed

/-! ### Runs -/

/-- A beam whose hypotheses are booked and have come through at least `count` typed keys. -/
def BookedBeam (unicode : UnicodeTable) (functions : Functions F) (observed : List Text)
    (mode : GenerationMode) (config : LmTypoConfig F) (count : Nat) (beam : List (Hypothesis F))
    (scorer : LmScorer σ F) : Prop :=
  ∀ hypothesis ∈ beam, Booked unicode functions observed mode config scorer hypothesis ∧
    min count observed.length ≤ hypothesis.observedPosition

theorem searchRound_yields {count : Nat} {beam : List (Hypothesis F)}
    (h : BookedBeam unicode functions observed mode config count beam scorer) :
    Yields (Later functions model) (searchRound unicode functions model observed mode config beam)
      (fun result last => ∀ next, result = some next →
        BookedBeam unicode functions observed mode config (count + 1) next last) scorer := by
  have hcall : ∀ hypothesis ∈ beam, ∀ later, Later functions model scorer later →
      Yields (Later functions model)
        (if hypothesis.observedPosition = observed.length then pure [hypothesis]
          else expandHypothesis unicode functions model observed mode config hypothesis)
        (BookedBeam unicode functions observed mode config (count + 1)) later := by
    intro hypothesis hin later hlater
    obtain ⟨hbooked, hcount⟩ := h hypothesis hin
    split
    · next hend =>
      apply Yields.pure
      intro kept hkept
      obtain rfl := List.mem_singleton.mp hkept
      exact ⟨hbooked.later hlater, by omega⟩
    · apply (expandHypothesis_yields (hbooked.later hlater)).mono
      intro children last _ hchildren child hchild
      obtain ⟨hbooked', hforward⟩ := hchildren child hchild
      exact ⟨hbooked', by omega⟩
  apply Yields.bind (Yields.collect (fun child _ _ hlater hchild =>
    ⟨hchild.1.later hlater, hchild.2⟩) beam hcall)
  intro expanded last _ hexpanded
  split
  · exact Yields.pure fun next hnext => by cases hnext
  · apply Yields.pure
    intro next hnext hypothesis hin
    cases hnext
    exact hexpanded hypothesis (List.mem_mergeSort.mp (List.mem_of_mem_take hin))

variable (unicode functions model observed mode config) in
inductive Reached (start : LmScorer σ F) : Nat → LmScorer σ F → List (Hypothesis F) → Prop
  | initial : Reached start 0 start [Hypothesis.initial]
  | round {count : Nat} {scorer last : LmScorer σ F} {beam next : List (Hypothesis F)}
      (hreached : Reached start count scorer beam)
      (hopen : ¬beam.all fun hypothesis => hypothesis.observedPosition = observed.length)
      (hround : searchRound unicode functions model observed mode config beam scorer =
        .ok (some next, last)) : Reached start (count + 1) last next

variable {start : LmScorer σ F} {count : Nat} {beam : List (Hypothesis F)}

theorem Reached.booked
    (h : Reached unicode functions model observed mode config start count scorer beam) :
    Later functions model start scorer ∧
      BookedBeam unicode functions observed mode config count beam scorer := by
  induction h with
  | initial =>
    refine ⟨Later.refl _ _ _, ?_⟩
    intro hypothesis hin
    obtain rfl := List.mem_singleton.mp hin
    exact ⟨Booked.initial, by simp⟩
  | round hreached hopen hround ih =>
    obtain ⟨hlater, hbooked⟩ := searchRound_yields ih.2 _ _ hround
    exact ⟨Later.trans _ _ ih.1 hlater, hbooked _ rfl⟩

/-- Every round takes each open hypothesis further, so there are no more rounds than typed keys. -/
theorem Reached.count_le
    (h : Reached unicode functions model observed mode config start count scorer beam) :
    count ≤ observed.length := by
  cases h with
  | initial => exact Nat.zero_le _
  | round hreached hopen hround =>
    obtain ⟨hypothesis, hin, hshort⟩ := List.all_eq_false.mp (Bool.eq_false_iff.mpr hopen)
    obtain ⟨hbooked, hcount⟩ := hreached.booked.2 hypothesis hin
    have hne : hypothesis.observedPosition ≠ observed.length := by simpa using hshort
    have hinside := hbooked.inside
    omega

theorem searchLoop_reached
    (h : Reached unicode functions model observed mode config start count scorer beam) {steps : Nat}
    {final : List (Hypothesis F)}
    (hrun : searchLoop unicode functions model observed mode config steps beam scorer =
      .ok (final, last)) :
    ∃ count reached, Reached unicode functions model observed mode config start count
      reached final ∧
      Later functions model reached last := by
  induction steps generalizing count scorer beam with
  | zero =>
    cases hrun
    exact ⟨count, _, h, Later.refl _ _ _⟩
  | succ steps ih =>
    rw [searchLoop] at hrun
    by_cases hopen : beam.all fun hypothesis => hypothesis.observedPosition = observed.length
    · rw [if_pos hopen] at hrun
      cases hrun
      exact ⟨count, _, h, Later.refl _ _ _⟩
    · rw [if_neg hopen] at hrun
      obtain ⟨⟨result, middle⟩, hround, hrest⟩ := Loop.bind_eq_ok.mp hrun
      cases result with
      | none =>
        cases hrest
        exact ⟨count, _, h, (searchRound_yields h.booked.2 _ _ hround).1⟩
      | some next => exact ih (h.round hopen hround) hrest

theorem completeHypothesis_yields
    (h : Booked unicode functions observed mode config scorer hypothesis) :
    Yields (Later functions model)
      (completeHypothesis unicode functions model observed mode.table hypothesis)
      (fun result last => ∀ done, result = some done →
        Booked unicode functions observed mode config last done ∧
          done.observedPosition = observed.length) scorer := by
  unfold completeHypothesis
  split
  · next hend =>
    apply Yields.pure
    intro done hdone
    cases hdone
    exact ⟨h, Nat.le_antisymm h.inside hend⟩
  · next hshort =>
    split
    · exact Yields.pure fun done hdone => by cases hdone
    · apply Yields.bind (appendAndScore_yields hypothesis.emittedTokens _)
      intro scored middle hmiddle hscored
      split
      · exact Yields.pure fun done hdone => by cases hdone
      · next emittedTokens gain =>
        obtain ⟨appended, rfl, hgain⟩ := hscored _ _ rfl
        apply Yields.bind (pendingProxyLogProbability_yields _ _ mode.table)
        intro result last hlast hproxy
        split
        · exact Yields.pure fun done hdone => by cases hdone
        · next proxy =>
          apply Yields.pure
          intro done hdone
          cases hdone
          have hlength : hypothesis.observedPosition +
              (observed.drop hypothesis.observedPosition).length = observed.length := by
            rw [List.length_drop]
            omega
          have hbooked := h.further (Later.trans _ _ hmiddle hlast)
            (Edit.copies (observed.drop hypothesis.observedPosition)) appended
            (observed.drop hypothesis.observedPosition).getLast? (Edit.valid_copies _) hlength.le
            (by rw [Edit.flatMap_typed_copies, List.take_length])
            (by rw [Edit.flatMap_corrected_copies]) (emittedScore_later hlast hgain)
              (hproxy proxy rfl)
          rw [Edit.flatMap_corrected_copies, Edit.sum_cost_copies, add_zero, hlength] at hbooked
          exact ⟨hbooked, rfl⟩

/-- In every beam that a search comes by: the cached distributions are those of the model, there
were no more rounds than typed keys, every hypothesis is booked, and so is all that a later call
makes of it, further on in the input. -/
theorem hypotheses_booked {state : σ} {prompt : Text}
    (hnew : LmScorer.new model state prompt = .ok start)
    (h : Reached unicode functions model observed mode config start count scorer beam) :
    Sourced functions model scorer ∧ count ≤ observed.length ∧
      ∀ hypothesis ∈ beam, Booked unicode functions observed mode config scorer hypothesis ∧
        min count observed.length ≤ hypothesis.observedPosition ∧
        ∀ before, Later functions model scorer before →
          (∀ children last, expandHypothesis unicode functions model observed mode config hypothesis
              before = .ok (children, last) →
            ∀ child ∈ children, Booked unicode functions observed mode config last child ∧
              hypothesis.observedPosition < child.observedPosition) ∧
          ∀ done last, completeHypothesis unicode functions model observed mode.table hypothesis
              before = .ok (some done, last) →
            Booked unicode functions observed mode config last done ∧
              done.observedPosition = observed.length := by
  obtain ⟨hlater, hbeam⟩ := h.booked
  refine ⟨hlater.sourced (LmScorer.new_sourced hnew), h.count_le, fun hypothesis hin => ?_⟩
  obtain ⟨hbooked, hcount⟩ := hbeam hypothesis hin
  refine ⟨hbooked, hcount,
    fun before hbefore => ⟨fun children last hrun => ?_, fun done last hrun => ?_⟩⟩
  · exact (expandHypothesis_yields (hbooked.later hbefore) children last hrun).2
  · exact (completeHypothesis_yields (hbooked.later hbefore) _ last hrun).2 done rfl

/-- One token for every character: its probability is one. -/
def oneToken : LanguageModel Unit ℚ where
  vocabularySize _ := 1
  tokenize text _ state := .ok (text.map fun _ => 0, state)
  tokenToPiece _ state := (.ok [], state)
  nextLogits _ state := .ok ([0], state)

def atZero : Functions ℚ := ⟨fun value => value + 1, fun value => value - 1, id, fun _ => true⟩

def swapped : Hypothesis ℚ where
  corrected := [['、'], ['。']]
  emittedText := ['、', '。']
  emittedTokens := [0, 0]
  observedPosition := 2
  previousInput := some ['。']
  pending := []
  proxyLogProbability := 0
  channelCost := 2
  lmScore := 0
  score := -2

theorem hypotheses_booked_swapped : ∃ last : LmScorer Unit ℚ,
    Booked UnicodeTable.kana atZero [['。'], ['、']] ⟨some InputTable.empty, .macQwerty, false, false⟩
      .default last swapped := by
  have hnew : LmScorer.new oneToken () [inputTag] = .ok { model := (), promptTokens := [0] } := rfl
  obtain ⟨next, last, hround, hswapped⟩ : ∃ next last, searchRound UnicodeTable.kana atZero oneToken
      [['。'], ['、']] ⟨some InputTable.empty, .macQwerty, false, false⟩ .default [Hypothesis.initial]
      { model := (), promptTokens := [0] } = .ok (some next, last) ∧ swapped ∈ next := by
    refine ⟨_, _, rfl, ?_⟩
    rw [List.take_of_length_le (by rw [List.length_mergeSort]; decide +kernel), List.mem_mergeSort]
    decide +kernel
  exact ⟨last, ((hypotheses_booked hnew (.round .initial (by decide) hround)).2.2
    swapped hswapped).1⟩

/-! ### The result -/

theorem mem_bestCandidates {completed : List (Hypothesis F)} {candidate : LmTypoCandidate F}
    (hin : candidate ∈ bestCandidates functions config completed) :
    ∃ hypothesis ∈ completed, ({ candidate with prominence := 0 } : LmTypoCandidate F) =
      hypothesis.candidate := by
  have hkept : ∀ kept ∈ ((completed.map Hypothesis.candidate).foldl
      (Keyed.insert LmTypoCandidate.correctedInput fun existing candidate : LmTypoCandidate F =>
        existing.score < candidate.score) []), ∃ hypothesis ∈ completed,
          kept = hypothesis.candidate := by
    intro kept hkept
    obtain ⟨hypothesis, hhypothesis, rfl⟩ := List.mem_map.mp
      ((Keyed.mem_foldl_insert _ _ hkept).resolve_left List.not_mem_nil)
    exact ⟨hypothesis, hhypothesis, rfl⟩
  unfold bestCandidates at hin
  dsimp only at hin
  split at hin
  · obtain ⟨hypothesis, hhypothesis, rfl⟩ :=
      hkept candidate (List.mem_mergeSort.mp (List.mem_of_mem_take hin))
    exact ⟨hypothesis, hhypothesis, rfl⟩
  · obtain ⟨kept, hbest, rfl⟩ := List.mem_map.mp hin
    obtain ⟨hypothesis, hhypothesis, rfl⟩ :=
      hkept kept (List.mem_mergeSort.mp (List.mem_of_mem_take hbest))
    exact ⟨hypothesis, hhypothesis, rfl⟩

/-- The candidates of a search are complete hypotheses, by their books. -/
theorem search_yields :
    Yields (Later functions model) (search unicode functions model observed mode config)
      (fun candidates last => ∀ candidate ∈ candidates, ∃ hypothesis,
        Booked unicode functions observed mode config last hypothesis ∧
          hypothesis.observedPosition = observed.length ∧
          ({ candidate with prominence := 0 } : LmTypoCandidate F) = hypothesis.candidate)
            start := by
  have hloop : ∀ steps, Yields (Later functions model)
      (searchLoop unicode functions model observed mode config steps [Hypothesis.initial])
      (BookedBeam unicode functions observed mode config 0) start := by
    intro steps beam last hrun
    obtain ⟨count, reached, hreached, hlater⟩ := searchLoop_reached Reached.initial hrun
    obtain ⟨hstart, hbeam⟩ := hreached.booked
    exact ⟨Later.trans _ _ hstart hlater,
      fun hypothesis hin => ⟨(hbeam hypothesis hin).1.later hlater, by simp⟩⟩
  apply Yields.bind (hloop _)
  intro beam first _ hbeam
  have hdone : ∀ hypothesis ∈ beam, ∀ later, Later functions model first later →
      Yields (Later functions model) (do
        let done ← completeHypothesis unicode functions model observed mode.table hypothesis
        return done.toList)
        (fun completed last => ∀ done ∈ completed,
          Booked unicode functions observed mode config last done ∧
            done.observedPosition = observed.length) later := by
    intro hypothesis hin later hlater
    apply Yields.bind (completeHypothesis_yields ((hbeam hypothesis hin).1.later hlater))
    intro done last _ hcompleted
    exact Yields.pure fun other hother => hcompleted other (Option.mem_toList.mp hother)
  apply Yields.bind
    (Yields.collect (fun done _ _ hlater hdone => ⟨hdone.1.later hlater, hdone.2⟩) beam
    hdone)
  intro completed second hsecond hcompleted
  apply Yields.bind (completeHypothesis_yields Booked.initial)
  intro original third hthird horiginal
  apply Yields.pure
  intro candidate hin
  obtain ⟨hypothesis, hhypothesis, hsame⟩ := mem_bestCandidates hin
  cases List.mem_append.mp hhypothesis with
  | inl hbeam =>
    obtain ⟨hbooked, hend⟩ := hcompleted hypothesis hbeam
    exact ⟨hypothesis, hbooked.later hthird, hend, hsame⟩
  | inr horig =>
    obtain ⟨hbooked, hend⟩ := horiginal hypothesis (Option.mem_toList.mp horig)
    exact ⟨hypothesis, hbooked, hend, hsame⟩

end

end BeanKey.LmTypo
