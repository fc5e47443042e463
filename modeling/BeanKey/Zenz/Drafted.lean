import BeanKey.Lattice.Follow
import BeanKey.Zenz.Reported

/-! The candidates that a conversion reviews: each was drafted before, and begins with a word that
the lookups give for the start of the text. -/
namespace BeanKey.Lattice
open Input Zenz

section
variable {unicode : UnicodeTable} {tables : InputTableRegistry} {order : HashOrder}
  {composing : ComposingText} {lookups : Lookups unicode} {additionalEntries : List DictionaryEntry}
  {constraint : Option PrefixConstraint} {lattice : LatticeNodes}

theorem LatticeNodes.IsChain.first {map : DualIndexMap} {after : List LatticeNode}
    {first : LatticeNode} (h : lattice.IsChain map constraint (after ++ [first])) :
    lattice.Has first ∧ (first.slot.1 = .surface 0 ∨ first.slot.1 = .input 0) := by
  by_cases hnil : after = []
  · subst hnil
    cases h with
    | start hhas hslot _ => exact ⟨hhas, hslot⟩
  · cases (h.beginning hnil).1 with
    | start hhas hslot _ => exact ⟨hhas, hslot⟩

/-- Without typo correction a node stands for an entry at its place in the surface. -/
theorem mem_surfaceEntries_of_slot
    (hbuild : buildLattice lookups order tables { additionalEntries, constraint } composing =
      some lattice) {node : LatticeNode} (hnode : lattice.Has node) {start : Nat}
    (hslot : node.slot.1 = .surface start) :
    ∃ entries last, surfaceEntries lookups additionalEntries composing.surface.length
      (katakanaGraphemes unicode composing) start = some entries ∧
      (node.entry, last) ∈ entries := by
  obtain ⟨nodes, hnodes, hin⟩ | ⟨nodes, hnodes, hin⟩ := hnode
  · obtain ⟨place, hplace⟩ := List.mem_iff_getElem?.mp hnodes
    rw [buildLattice_surface hbuild] at hplace
    split at hplace
    · obtain ⟨entries, hentries, rfl⟩ := Option.map_eq_some_iff.mp hplace
      obtain ⟨hstart, last, -, hentry⟩ := mem_placeNodes hin
      obtain rfl := LatticeIndex.surface.inj (hstart.symm.trans hslot)
      exact ⟨entries, last, hentries, hentry⟩
    · cases hplace
  · obtain ⟨place, hplace⟩ := List.mem_iff_getElem?.mp hnodes
    rw [buildLattice_input hbuild] at hplace
    split at hplace
    · obtain rfl := Option.some.inj hplace
      exact absurd hin List.not_mem_nil
    · cases hplace

theorem latticeResults_first {nBest : Nat} {context : ConversionContext}
    {results : List RegisteredPath}
    (hresults : latticeResults lookups context nBest order tables { additionalEntries, constraint }
      composing = some results) {path : RegisteredPath} (hpath : path ∈ results) :
    ∃ entries entry last, surfaceEntries lookups additionalEntries composing.surface.length
      (katakanaGraphemes unicode composing) 0 = some entries ∧ (entry, last) ∈ entries ∧
      utf8 entry.word <+: pathBytes path.nodes := by
  obtain ⟨lattice, hbuild, node, before, hnodes, hchain, -⟩ := latticeResults_chains hresults hpath
  obtain ⟨after, first, hfirst⟩ :=
    (List.eq_nil_or_concat (node :: before)).resolve_left (List.cons_ne_nil node before)
  rw [List.concat_eq_append] at hfirst
  rw [hfirst] at hchain
  obtain ⟨hhas, hzero⟩ := hchain.first
  obtain ⟨start, last, hlt, hslot, -⟩ := has_surface hbuild rfl hhas
  have hstart : first.slot.1 = .surface 0 := hzero.resolve_right fun hinput => by
    rw [hslot] at hinput
    cases hinput
  obtain ⟨entries, last, hentries, hentry⟩ := mem_surfaceEntries_of_slot hbuild hhas hstart
  refine ⟨entries, first.entry, last, hentries, hentry, ?_⟩
  rw [hnodes, hfirst, pathBytes, List.reverse_concat, List.flatMap_cons]
  exact List.prefix_append _ _

end

/-! ### What is reviewed -/

end BeanKey.Lattice

namespace BeanKey.Zenz
open BeanKey.Lattice hiding Candidate
open Packing Asking
open Session (Candidate ConversionSession)

section
variable {F : Type} {arithmetic : Arithmetic F} {quarter half : F} {input : ConversionInput F}
  {log : Log (Question F) Question.Answer} {K : Candidate → Prop}

def DraftsOnly (K : Candidate → Prop) (_ : Log (Question F) Question.Answer) :
    (question : Question F) → question.Answer → Prop
  | .draft _ _, drafted => ∀ draft, drafted = some draft → ∀ candidate ∈ draft, K candidate
  | .evaluate _, _ => True

def Question.Reviews (K : Candidate → Prop) : Question F → Prop
  | .draft _ _ => True
  | .evaluate request => K request.candidate

abbrev ReviewsOnly (K : Candidate → Prop) (log : Log (Question F) Question.Answer)
    (_ : Option Converted) : Prop :=
  ∀ event ∈ log, event.1.Reviews K

structure Review.IsDrafted (K : Candidate → Prop) (review : Review) : Prop where
  candidate : K review.candidate
  draft : ∀ candidate ∈ review.draft, K candidate

theorem mem_bestFrom {index : Nat} {best found : Nat × Candidate} {candidates : List Candidate}
    (h : bestFrom index best candidates = found) : found = best ∨ found.2 ∈ candidates := by
  induction candidates generalizing index best with
  | nil => exact .inl h.symm
  | cons candidate rest ih =>
    rw [bestFrom] at h
    split at h
    · rcases ih h with hfound | hin
      · exact .inr (by rw [hfound]; exact List.mem_cons_self)
      · exact .inr (List.mem_cons_of_mem _ hin)
    · exact (ih h).imp_right (List.mem_cons_of_mem _)

theorem mem_bestCandidate {candidates : List Candidate} {index : Nat} {candidate : Candidate}
    (h : bestCandidate candidates = some (index, candidate)) : candidate ∈ candidates := by
  cases candidates with
  | nil => cases h
  | cons first rest =>
    rcases mem_bestFrom (Option.some.inj h) with hfirst | hin
    · rw [(Prod.mk.inj hfirst).2]
      exact List.mem_cons_self
    · exact List.mem_cons_of_mem _ hin

/-- A candidate to go on with is another one of the draft, which satisfies the constraint that the
rejection gave. -/
theorem reviewRejection_retry {constraint next after : PrefixConstraint}
    {candidates : List Candidate} {index retried : Nat} {candidate found : Candidate}
    (h : reviewRejection constraint next candidates index candidate =
      (.retry retried found, after)) :
    found ∈ candidates ∧ candidateSatisfies found next = true := by
  have hfound : retryCandidate candidates index next = some (retried, found) := by
    cases hcase : retryCandidate candidates index next with
    | none =>
      simp only [reviewRejection, hcase] at h
      split at h
      · split at h <;> cases h
      · split at h <;> cases h
    | some pair =>
      obtain ⟨other, candidate⟩ := pair
      simp only [reviewRejection, hcase] at h
      split at h
      · split at h
        · cases h
          rfl
        · cases h
      · split at h
        · cases h
          rfl
        · cases h
  obtain ⟨⟨other, place⟩, hother, hpair⟩ := Option.map_eq_some_iff.mp hfound
  obtain ⟨rfl, rfl⟩ := Prod.mk.inj hpair
  have hall := List.find?_some hother
  simp only [Bool.and_eq_true] at hall
  exact ⟨List.fst_mem_of_mem_zipIdx (List.mem_of_find?_eq_some hother), hall.1.2⟩

theorem searchDraft_reviews {constraint : PrefixConstraint} {constructed inserted : List Candidate}
    {goOn : Review → Asks F Converted} (hlog : ∀ event ∈ log, event.1.Reviews K)
    (hgoOn : ∀ log review, (∀ event ∈ log, event.1.Reviews K) → review.IsDrafted K →
      Program.Ensures (DraftsOnly K) log (goOn review) (ReviewsOnly K)) :
    Program.Ensures (DraftsOnly K) log
      (searchDraft input constraint constructed inserted goOn) (ReviewsOnly K) := by
  intro drafted hdrafted
  have hasked : ∀ event ∈ log ++ [⟨.draft _ constraint, drafted⟩], event.1.Reviews K := by
    rw [List.forall_mem_append, List.forall_mem_singleton]
    exact ⟨hlog, trivial⟩
  cases drafted with
  | none => exact hasked
  | some draft =>
    dsimp only
    cases hbest : bestCandidate draft with
    | none => exact hasked
    | some best =>
      have hall := hdrafted draft rfl
      exact hgoOn _ _ hasked ⟨hall _ (mem_bestCandidate hbest), hall⟩

theorem rejected_reviews {next : PrefixConstraint} {review : Review}
    {goOn : Review → Asks F Converted} (hlog : ∀ event ∈ log, event.1.Reviews K)
    (hreview : review.IsDrafted K)
    (hgoOn : ∀ log review, (∀ event ∈ log, event.1.Reviews K) → review.IsDrafted K →
      Program.Ensures (DraftsOnly K) log (goOn review) (ReviewsOnly K)) :
    Program.Ensures (DraftsOnly K) log (rejected input next review goOn) (ReviewsOnly K) := by
  rw [rejected]
  split
  · exact hlog
  · next index candidate after hrejected =>
    have hin := (reviewRejection_retry hrejected).1
    exact hgoOn _ _ hlog ⟨hreview.draft _ hin, hreview.draft⟩
  · exact searchDraft_reviews hlog hgoOn

theorem reviewLoop_reviews (remaining : Nat) (review : Review)
    (hlog : ∀ event ∈ log, event.1.Reviews K) (hreview : review.IsDrafted K) :
    Program.Ensures (DraftsOnly K) log
      (reviewLoop arithmetic quarter half input remaining review) (ReviewsOnly K) := by
  induction remaining generalizing log review with
  | zero => exact hlog
  | succ remaining ih =>
    rw [reviewLoop]
    dsimp only
    split
    · exact hlog
    · intro result _
      have hasked : ∀ event ∈ log ++
          [⟨.evaluate (input.request review.constraint review.candidate), result⟩],
          event.1.Reviews K := by
        rw [List.forall_mem_append, List.forall_mem_singleton]
        exact ⟨hlog, hreview.candidate⟩
      have hagain : Review.IsDrafted K
          { review with inserted := review.candidate :: review.inserted } :=
        ⟨hreview.candidate, hreview.draft⟩
      cases result with
      | error error => exact hasked
      | ok evaluation =>
        cases evaluation with
        | pass score alternatives =>
          dsimp only
          split
          · apply Program.Ensures.bind
            apply (insertRichCandidates_ensures _ _ _).mono
            rintro whole inserted ⟨after, rfl, hdrafts⟩
            refine List.forall_mem_append.mpr ⟨hasked, fun event hin => ?_⟩
            have hdraft := hdrafts event hin
            obtain ⟨question, answer⟩ := event
            cases question with
            | draft nBest constraint => trivial
            | evaluate request => exact absurd hdraft id
          · exact hasked
        | fixRequired bytes => exact rejected_reviews hasked hagain fun log review => ih review
        | wholeResult whole => exact rejected_reviews hasked hagain fun log review => ih review

/-- Whatever holds of all candidates that are drafted holds of those that are reviewed. -/
theorem convert_reviews {unicode : UnicodeTable} {tables : Input.InputTableRegistry}
    {session : ConversionSession} {cache : ZenzConversionCache}
    {options : ZenzConversionOptions F} :
    Program.Ensures (DraftsOnly K) []
      (convert arithmetic quarter half unicode tables session cache options) (ReviewsOnly K) :=
  searchDraft_reviews (fun _ hin => absurd hin List.not_mem_nil)
    fun _ review => reviewLoop_reviews _ review

end

end BeanKey.Zenz
