import BeanKey.Engine.Shown
import BeanKey.Fcitx.Engine

/-! The rows of the candidate list: what stands in them, and that the cursor stands on the selected
one. -/
namespace BeanKey.Fcitx
open Engine Protocol

namespace BeanKeyState
variable {state : BeanKeyState} {session : SessionState} {response : StateResponse}

/-- The row of a list, by the state: a candidate of the response, or a typo correction under its own
index. -/
structure Tidy (state : BeanKeyState) : Prop where
  candidates : state.typoCandidates = [] → ∀ list ∈ state.inputContext.panel.candidateList,
    ∀ word ∈ list.words, ∃ shown ∈ state.normalState.candidates, word = candidateWord shown
  typos : state.typoCandidates ≠ [] → ∀ list ∈ state.inputContext.panel.candidateList,
    ∀ word ∈ list.words, ∃ index candidate, state.typoCandidates[index]? = some candidate ∧
      word = typoCorrectionWord (candidate, index)
  page : ∀ list ∈ state.inputContext.panel.candidateList, list.words.length ≤ kCandidatePageSize
  cursor : ∀ list ∈ state.inputContext.panel.candidateList, ∀ cursor ∈ list.globalCursorIndex,
    0 ≤ cursor ∧ ∃ word, list.words[cursor.toNat]? = some word ∧
      if state.typoCandidates = [] then
        (state.normalState.candidates[state.selectedCandidate.toNat]?).map candidateWord = some word
      else (state.typoCandidates[state.typoSelection]?).map
        (fun candidate => typoCorrectionWord (candidate, state.typoSelection)) = some word
  typoSelection : state.typoCandidates ≠ [] → state.typoSelection < state.typoCandidates.length
  indices : state.typoCandidates = [] →
    state.candidateIndices = state.normalState.candidates.map Protocol.Candidate.index

theorem tidy_clearUi : state.clearUi.Tidy where
  candidates := by simp [clearUi]
  typos := by simp [clearUi]
  page := by simp [clearUi]
  cursor := by simp [clearUi]
  typoSelection := fun hne => absurd rfl hne
  indices := fun _ => rfl

/-- The window that a response opens starts at or before the selected candidate, and goes past
it. -/
theorem windowStart_shows (state : BeanKeyState) (hwindow : response.candidateWindow = .selecting)
    (hselected : 0 ≤ response.selectedCandidate) :
    state.windowStart response ≤ response.selectedCandidate.toNat ∧
      response.selectedCandidate.toNat < state.windowStart response + kCandidatePageSize := by
  unfold windowStart
  rw [if_pos hwindow]
  dsimp only
  rw [if_pos hselected]
  exact Window.reveal_shows _ _ (by decide)

/-- Only the selected candidate of an open window has the cursor. -/
theorem candidateList_cursor (h : Shows session response) {cursor : Int}
    (hcursor : cursor ∈ (candidateList response (state.windowStart response)).globalCursorIndex) :
    0 ≤ cursor ∧ ∃ word,
      (candidateList response (state.windowStart response)).words[cursor.toNat]? = some word ∧
        (response.candidates[response.selectedCandidate.toNat]?).map candidateWord = some word := by
  unfold candidateList at hcursor
  dsimp only at hcursor
  split at hcursor
  · next hplace =>
    cases hcursor
    have hne : response.candidates ≠ [] := by
      intro hnil
      simp only [hnil, List.length_nil, Nat.cast_zero] at hplace
      omega
    have hwindow : response.candidateWindow = .selecting := by
      by_contra hclosed
      have := h.unselected hclosed hne
      omega
    have hshows := windowStart_shows state hwindow hplace.1
    have hrow : (response.selectedCandidate - (state.windowStart response : Int)).toNat =
        response.selectedCandidate.toNat - state.windowStart response := by omega
    have hlt : response.selectedCandidate.toNat < response.candidates.length := by omega
    have hword : (candidateList response (state.windowStart response)).words[
        response.selectedCandidate.toNat - state.windowStart response]? =
          (response.candidates[response.selectedCandidate.toNat]?).map candidateWord := by
      unfold candidateList
      dsimp only
      rw [if_pos hwindow, List.getElem?_map, Window.getElem?_rows _ (by omega)]
      congr 3
      omega
    refine ⟨by omega, candidateWord response.candidates[response.selectedCandidate.toNat], ?_, ?_⟩
    · rw [hrow, hword, List.getElem?_eq_getElem hlt, Option.map_some]
    · rw [List.getElem?_eq_getElem hlt, Option.map_some]
  · cases hcursor

theorem responsePanel_list {start : Nat} {list : CandidateList}
    (h : list ∈ (responsePanel response start).candidateList) : list =
    candidateList response start := by
  unfold responsePanel at h
  dsimp only at h
  split at h
  · cases h
  · dsimp only at h
    split at h
    · cases h
    · cases h
      rfl

theorem candidateList_words {start : Nat} {word : CandidateWord}
    (h : word ∈ (candidateList response start).words) :
    ∃ shown ∈ response.candidates, word = candidateWord shown := by
  unfold candidateList at h
  obtain ⟨shown, hshown, rfl⟩ := List.mem_map.mp h
  refine ⟨shown, ?_, rfl⟩
  split at hshown
  · exact Window.mem_of_mem_rows hshown
  · exact List.mem_of_mem_take hshown

theorem candidateList_length {start : Nat} :
    (candidateList response start).words.length ≤ kCandidatePageSize := by
  unfold candidateList
  rw [List.length_map]
  split
  · exact Window.rows_length_le _
  · exact (List.length_take_le _ _).trans (by decide)

theorem apply_tidy (h : Shows session response) : (state.apply response).Tidy where
  candidates := by
    intro _ list hlist word hword
    rw [responsePanel_list hlist] at hword
    exact candidateList_words hword
  typos := fun hne => absurd rfl hne
  page := by
    intro list hlist
    rw [responsePanel_list hlist]
    exact candidateList_length
  cursor := by
    intro list hlist cursor hcursor
    rw [responsePanel_list hlist] at hcursor ⊢
    simpa [apply] using candidateList_cursor h hcursor
  typoSelection := fun hne => absurd rfl hne
  indices := fun _ => rfl

/-! ### The typo list -/

theorem getElem?_typoRows {start row : Nat} (hrow : row < kCandidatePageSize) :
    ((Window.rows kCandidatePageSize start state.typoCandidates.zipIdx).map
        typoCorrectionWord)[row]? =
      (state.typoCandidates[start + row]?).map fun candidate =>
        typoCorrectionWord (candidate, start + row) := by
  rw [List.getElem?_map, Window.getElem?_rows _ hrow, List.getElem?_zipIdx]
  cases state.typoCandidates[start + row]? <;> simp

theorem displayTypoCorrections_tidy (hne : state.typoCandidates ≠ [])
    (hselection : state.typoSelection < state.typoCandidates.length) :
    state.displayTypoCorrections.Tidy where
  candidates := fun hnil => absurd hnil hne
  typos := by
    intro _ list hlist word hword
    cases hlist
    obtain ⟨candidate, hcandidate, rfl⟩ := List.mem_map.mp hword
    exact ⟨candidate.2, candidate.1,
      List.mk_mem_zipIdx_iff_getElem?.mp (Window.mem_of_mem_rows hcandidate), rfl⟩
  page := by
    intro list hlist
    cases hlist
    rw [List.length_map]
    exact Window.rows_length_le _
  cursor := by
    intro list hlist cursor hcursor
    cases hlist
    cases hcursor
    have hshows := Window.reveal_shows state.typoWindowStart state.typoSelection
      (show 0 < kCandidatePageSize by decide)
    generalize Window.reveal kCandidatePageSize state.typoWindowStart state.typoSelection = start
      at hshows ⊢
    refine ⟨by omega, typoCorrectionWord (state.typoCandidates[state.typoSelection],
      state.typoSelection), ?_, ?_⟩
    · have hrow : ((state.typoSelection : Int) - start).toNat = state.typoSelection - start := by
        omega
      rw [hrow, getElem?_typoRows (by omega), show start + (state.typoSelection - start) =
        state.typoSelection by omega, List.getElem?_eq_getElem hselection, Option.map_some]
    · rw [if_neg (show state.displayTypoCorrections.typoCandidates ≠ [] from hne)]
      simp [displayTypoCorrections, List.getElem?_eq_getElem hselection]
  typoSelection := fun _ => hselection
  indices := fun hnil => absurd hnil hne

theorem showTypoCorrections_tidy (h : Shows session state.normalState)
    (candidates : List TypoCorrectionCandidate) : (state.showTypoCorrections candidates).Tidy := by
  unfold showTypoCorrections
  split
  · exact apply_tidy h
  · next hne => exact displayTypoCorrections_tidy hne (List.length_pos_iff.mpr hne)

theorem moveTypoSelection_tidy (hne : state.typoCandidates ≠ []) (forward : Bool) :
    (state.moveTypoSelection forward).Tidy := by
  have hpos := List.length_pos_iff.mpr hne
  refine displayTypoCorrections_tidy hne ?_
  dsimp only
  omega

end BeanKeyState

end BeanKey.Fcitx
