import BeanKey.Input.Complete
import BeanKey.Input.Parts

/-! Typing two lists of elements one after the other, and both at once. The second call looks for
the place the first one left. -/
namespace BeanKey.Input
variable {unicode : UnicodeTable} {tables : InputTableRegistry}

/-! ### The boundaries of a suffix -/

/-- Behind a boundary the scan keeps the boundaries of what stands there. -/
theorem mem_independentBoundaries_append {first : List InputElement} (rest : List InputElement)
    (hq : ∀ element ∈ first ++ rest, element.Quiet tables)
    (h : ⟨first.length, (convertElements tables first).length⟩ ∈
      independentBoundaries tables (first ++ rest)) (position surface : Nat) :
    ⟨first.length + position, (convertElements tables first).length + surface⟩ ∈
        independentBoundaries tables (first ++ rest) ↔
      ⟨position, surface⟩ ∈ independentBoundaries tables rest := by
  have hdrop := mem_boundaries_drop hq h ⟨position, surface⟩
  rw [List.drop_left] at hdrop
  exact hdrop.symm

/-! ### The last boundary at a position -/

theorem searchCursor_last {boundaries : List IndexPair} {target input : Nat}
    {segmentEnd : IndexPair}
    (hsorted : boundaries.Pairwise fun later earlier =>
      earlier.input < later.input ∧ earlier.surface ≤ later.surface)
    (h : searchCursor target boundaries segmentEnd = .boundary input) :
    ∀ pair ∈ boundaries, pair.surface = target → pair.input ≤ input := by
  induction boundaries generalizing segmentEnd with
  | nil => exact fun pair hin => absurd hin List.not_mem_nil
  | cons start rest ih =>
    obtain ⟨hstart, hrest⟩ := List.pairwise_cons.mp hsorted
    rw [searchCursor] at h
    intro pair hpair hsurface
    split at h
    · obtain rfl : start.input = input := CursorSearch.boundary.inj h
      obtain rfl | hin := List.mem_cons.mp hpair
      · exact le_rfl
      · exact (hstart pair hin).1.le
    · rename_i hother
      have hin : pair ∈ rest := by
        obtain rfl | hin := List.mem_cons.mp hpair
        · exact absurd hsurface hother
        · exact hin
      split at h
      · cases h
      · split at h
        · exact ih hrest h pair hin hsurface
        · exact ih hrest h pair hin hsurface

theorem searchCursor_of_mem {boundaries : List IndexPair} {target input : Nat}
    (segmentEnd : IndexPair)
    (hsorted : boundaries.Pairwise fun later earlier =>
      earlier.input < later.input ∧ earlier.surface ≤ later.surface)
    (h : ⟨input, target⟩ ∈ boundaries) :
    ∃ last, searchCursor target boundaries segmentEnd = .boundary last := by
  induction boundaries generalizing segmentEnd with
  | nil => exact absurd h List.not_mem_nil
  | cons start rest ih =>
    obtain ⟨hstart, hrest⟩ := List.pairwise_cons.mp hsorted
    rw [searchCursor]
    by_cases hfound : start.surface = target
    · exact ⟨start.input, if_pos hfound⟩
    · have hin : ⟨input, target⟩ ∈ rest := by
        obtain hhead | hin := List.mem_cons.mp h
        · exact absurd (congrArg IndexPair.surface hhead).symm hfound
        · exact hin
      have hover : ¬start.surface < target := by
        have hle := (hstart _ hin).2
        simp only at hle
        omega
      rw [if_neg hfound, if_neg hover]
      split
      · exact ih start hrest hin
      · exact ih segmentEnd hrest hin

namespace ComposingText

/-- The input begins with elements that show nothing and that no later element reaches into. -/
def StartsHidden (tables : InputTableRegistry) (input : List InputElement) : Prop :=
  ∃ position, 0 < position ∧ ⟨position, 0⟩ ∈ independentBoundaries tables input

theorem drop_frozenCharacters (first last : List InputElement)
    {middle : List Grapheme} {count : Nat}
    (h : count ≤ middle.length) :
    (first ++ frozenCharacters middle ++ last).drop (count + first.length) =
      frozenCharacters (middle.drop count) ++ last := by
  have hdrop : (frozenCharacters middle).drop count = frozenCharacters (middle.drop count) :=
    List.map_drop.symm
  have hlen : (frozenCharacters middle).length = middle.length := List.length_map _
  rw [List.append_assoc, Nat.add_comm, List.drop_length_add_append,
    List.drop_append_of_le_length (by omega), hdrop]

theorem not_startsHidden_frozen {surface : List Grapheme} (hne : surface ≠ [])
    {more : List InputElement} (hq : ∀ element ∈ more, element.Quiet tables) :
    ¬StartsHidden tables (frozenCharacters surface ++ more) := by
  obtain ⟨value, rest, rfl⟩ := List.exists_cons_of_ne_nil hne
  rintro ⟨position, hpositive, hmem⟩
  exact hpositive.ne' (input_eq_zero_of_frozen hq hmem)

/-- A position that is a boundary is forced to the last one there. -/
theorem forceInputCursor_of_boundary {text : ComposingText} (h : text.Coherent tables)
    {target input : Nat} (hpositive : 0 < target) (hlt : target < text.surface.length)
    (hmem : ⟨input, target⟩ ∈ independentBoundaries tables text.input) :
    ∃ last, text.forceInputCursor tables target = (text, last) ∧
      ⟨last, target⟩ ∈ independentBoundaries tables text.input ∧
      ∀ pair ∈ independentBoundaries tables text.input, pair.surface = target →
      pair.input ≤ last := by
  have hsorted := (scan_invariant tables text.input).sorted
  obtain ⟨last, hlast⟩ := searchCursor_of_mem ⟨text.input.length, text.surface.length⟩ hsorted hmem
  have hfound := searchCursor_independentBoundaries h hlt
  have hlast' : searchCursor target (independentBoundaries tables text.input)
      ⟨text.input.length, text.surface.length⟩ = .boundary last := hlast
  rw [hlast'] at hfound
  refine ⟨last, ?_, hfound, searchCursor_last hsorted hlast⟩
  rw [forceInputCursor, if_neg (by omega), if_neg (by omega), hlast']

/-- Inside the surface, the input after the forced cursor starts with what shows something. -/
theorem forceInputCursor_visible {text : ComposingText} (h : text.Coherent tables) {target : Nat}
    (hpositive : 0 < target) (hlt : target < text.surface.length) :
    ¬StartsHidden tables ((text.forceInputCursor tables target).1.input.drop
      (text.forceInputCursor tables target).2) := by
  rintro ⟨position, hposition, hmem⟩
  have hcut := forceInputCursor_cut h target
  have hboundary := forceInputCursor_boundary h hlt
  have hsorted := (scan_invariant tables text.input).sorted
  unfold forceInputCursor at hmem hcut hboundary
  rw [if_neg (by omega : ¬target = 0), if_neg (not_le.mpr hlt)] at hmem hcut hboundary
  cases hsearch : searchCursor target (independentBoundaries tables text.input)
      ⟨text.input.length, text.surface.length⟩ with
  | boundary input =>
    rw [hsearch] at hmem hcut hboundary
    -- a boundary behind the last one there would be the last one
    have hbefore := congrArg List.length hcut.before
    have hlen : (text.input.take input).length = input := by
      rw [List.length_take, Nat.min_eq_left hcut.le]
    simp only [List.length_take, Nat.min_eq_left hlt.le] at hbefore hmem hboundary
    have hsplit := @mem_independentBoundaries_append tables (text.input.take input)
      (text.input.drop input) (by rw [List.take_append_drop]; exact h.quiet)
      (by rw [List.take_append_drop, hlen, hbefore]; exact hboundary) position 0
    rw [List.take_append_drop, hlen, hbefore, Nat.add_zero] at hsplit
    have hle := searchCursor_last hsorted hsearch _ (hsplit.mpr hmem) rfl
    simp only at hle
    omega
  | inside first last =>
    have hfound := searchCursor_independentBoundaries h hlt
    rw [hsearch] at hmem hfound
    obtain ⟨hfirst, hlast, hlow, hhigh, -⟩ := hfound
    have hfirstLen : (text.input.take first.input).length = first.input := by
      rw [List.length_take, Nat.min_eq_left (h.isBoundary hfirst).le]
    have hmidLen : target - first.surface <
        ((text.surface.take last.surface).drop first.surface).length := by
      have hlastLe : last.surface ≤ text.surface.length := by
        rw [← (h.isBoundary hlast).surface, (CutAt.of_boundary h (h.isBoundary hlast)).before,
          List.length_take]
        exact min_le_right _ _
      rw [List.length_drop, List.length_take, Nat.min_eq_left hlastLe]
      omega
    simp only at hmem
    have hdrop := drop_frozenCharacters (text.input.take first.input) (text.input.drop last.input)
      hmidLen.le
    rw [hfirstLen] at hdrop
    rw [hdrop] at hmem
    have hne : ((text.surface.take last.surface).drop first.surface).drop (target - first.surface) ≠
        [] := List.ne_nil_of_length_pos (by rw [List.length_drop]; omega)
    exact not_startsHidden_frozen hne
      (fun element hin => h.quiet element (List.mem_of_mem_drop hin)) ⟨position, hposition, hmem⟩

/-! ### What an insertion leaves -/

def withoutSeparator (elements : List InputElement) : List InputElement :=
  if elements.getLast? = some .frozenSeparator then elements.dropLast else elements

theorem withoutSeparator_concat (elements : List InputElement) :
    withoutSeparator (elements ++ [.frozenSeparator]) = elements := by
  simp [withoutSeparator]

theorem withoutSeparator_append (first : List InputElement) {last : List InputElement}
    (hne : last ≠ []) : withoutSeparator (first ++ last) = first ++ withoutSeparator last := by
  unfold withoutSeparator
  rw [List.getLast?_append_of_ne_nil _ hne, List.dropLast_append_of_ne_nil hne]
  split <;> rfl

theorem convert_withoutSeparator (tables : InputTableRegistry) (elements : List InputElement) :
    convertElements tables (withoutSeparator elements) = convertElements tables elements := by
  induction elements using List.reverseRecOn with
  | nil => rfl
  | append_singleton elements element _ =>
    by_cases hlast : element = .frozenSeparator
    · rw [hlast, withoutSeparator_concat, convert_frozenSeparator]
    · simp [withoutSeparator, hlast]

theorem dropSeparatorBefore_append (first rest : List InputElement) :
    dropSeparatorBefore (first ++ rest) first.length =
      (withoutSeparator first ++ rest, (withoutSeparator first).length) := by
  induction first using List.reverseRecOn with
  | nil => rfl
  | append_singleton first element _ =>
    have hget : (first ++ [element] ++ rest)[(first ++ [element]).length - 1]? = some element := by
      simp
    have herase : (first ++ [element] ++ rest).eraseIdx ((first ++ [element]).length - 1) =
        first ++ rest := by
      rw [List.eraseIdx_eq_take_drop_succ]
      simp
    unfold dropSeparatorBefore
    rw [hget, herase]
    by_cases hlast : element = .frozenSeparator
    · rw [hlast, if_pos ⟨by simp, rfl⟩, withoutSeparator_concat]
      simp
    · rw [if_neg fun hcondition => hlast (Option.some.inj hcondition.2)]
      simp [withoutSeparator, hlast]

theorem inputBefore_eq {text : ComposingText} (h : text.Coherent tables) :
    text.inputBefore tables = withoutSeparator
      ((text.forceInputCursor tables text.cursor).1.input.take
        (text.forceInputCursor tables text.cursor).2) := by
  have hle := (forceInputCursor_cut h text.cursor).le
  unfold inputBefore
  dsimp only
  generalize text.forceInputCursor tables text.cursor = forced at hle ⊢
  have hlen : (forced.1.input.take forced.2).length = forced.2 := by
    rw [List.length_take, Nat.min_eq_left hle]
  have hdrop := dropSeparatorBefore_append (forced.1.input.take forced.2)
    (forced.1.input.drop forced.2)
  rw [List.take_append_drop, hlen] at hdrop
  rw [hdrop, List.take_left]

theorem inputBefore_of_start {text : ComposingText} (hstart : text.cursor = 0) :
    text.inputBefore tables = [] := by
  have hforced : text.forceInputCursor tables text.cursor = (text, 0) := if_pos hstart
  unfold inputBefore
  rw [hforced]
  exact List.take_zero

theorem insert_input {text : ComposingText} (h : text.WellFormed tables)
    {elements : List InputElement} (hne : elements ≠ []) :
    (text.insert tables elements).input =
      (text.inputBefore tables ++ if text.isAtEnd then elements else elements ++
        [.frozenSeparator]) ++
        (text.forceInputCursor tables text.cursor).1.input.drop
          (text.forceInputCursor tables text.cursor).2 := by
  have hcut := forceInputCursor_cut h.coherent text.cursor
  have hdrop := (dropSeparatorBefore_spec tables hcut.le).2.2.2
  have hend : (text.forceInputCursor tables text.cursor).1.isAtEnd = text.isAtEnd := by
    rw [isAtEnd, isAtEnd, hcut.cursor, hcut.surface]
  simp only [insert, if_neg hne, hend, hdrop]
  rfl

/-! ### Both at once -/

def Apart (tables : InputTableRegistry) (before after : List InputElement) : Prop :=
  convertElements tables (before ++ after) =
    convertElements tables before ++ convertElements tables after

/-- One call for both lists shows what two calls show. -/
def InsertsAsOne (tables : InputTableRegistry) (text : ComposingText)
    (first second : List InputElement) : Prop :=
  (text.insert tables (first ++ second)).surface =
      ((text.insert tables first).insert tables second).surface ∧
    (text.insert tables (first ++ second)).cursor =
      ((text.insert tables first).insert tables second).cursor

/-- What shows nothing at the start of the input keeps apart what follows. -/
theorem apart_of_hidden {before after : List InputElement}
    (h : convertElements tables before = []) (hq : ∀ element ∈ after, element.Quiet tables) :
    Apart tables before after := by
  have hends : Ends tables before := by
    refine ⟨Aligned.start _, .inl ((tailLen_le _).trans ?_)⟩
    exact (congrArg List.length h).le
  exact hends.convert_append after hq

/-- Two calls show what one call shows where the second one finds the elements of the first before
the cursor, or what converts like them. -/
theorem insertsAsOne_iff {text : ComposingText} {first second : List InputElement}
    (h : text.WellFormed tables) (hfirst : first ≠ []) (hsecond : second ≠ [])
    (hafter : (text.insert tables first).WellFormed tables) :
    InsertsAsOne tables text first second ↔
      convertElements tables (text.inputBefore tables ++ (first ++ second)) =
        convertElements tables ((text.insert tables first).inputBefore tables ++ second) := by
  have hboth :=
    insert_surface h (show first ++ second ≠ [] from List.append_ne_nil_of_left_ne_nil hfirst _)
  have hone := insert_surface h hfirst
  have htwo := insert_surface hafter hsecond
  have hright : (text.insert tables first).surface.drop (text.insert tables first).cursor =
      text.surface.drop text.cursor := by
    rw [hone.1, hone.2, List.drop_left]
  rw [hright] at htwo
  rw [InsertsAsOne, hboth.1, hboth.2, htwo.1, htwo.2]
  constructor
  · exact fun hsame => List.append_cancel_right hsame.1
  · exact fun hsame => ⟨congrArg (· ++ _) hsame, congrArg List.length hsame⟩

/-- At the end of a text the second call finds the elements of the first, without a frozen separator
that they end in. -/
theorem inputBefore_insert_end {text : ComposingText} {first : List InputElement}
    (h : text.WellFormed tables) (hvisible : ¬text.HidesInput) (hne : first ≠ [])
    (hafter : (text.insert tables first).WellFormed tables) (hend : text.isAtEnd = true)
    (hshown : (text.insert tables first).cursor ≠ 0) :
    (text.insert tables first).inputBefore tables =
      text.inputBefore tables ++ withoutSeparator first := by
  have hcursor : text.cursor = text.surface.length := of_decide_eq_true hend
  have hinput := insert_input h hne
  rw [hend, if_pos rfl, forceInputCursor_drop_end tables hvisible hcursor, List.append_nil]
    at hinput
  have hone := insert_surface h hne
  have hlen : (text.insert tables first).surface.length ≤ (text.insert tables first).cursor := by
    rw [hone.1, hone.2, hcursor, List.drop_length, List.append_nil]
  have hforced : (text.insert tables first).forceInputCursor tables
      (text.insert tables first).cursor =
      (text.insert tables first, (text.insert tables first).input.length) := by
    rw [forceInputCursor, if_neg hshown, if_pos hlen]
  rw [inputBefore_eq hafter.coherent, hforced]
  dsimp only
  rw [List.take_length, hinput, withoutSeparator_append _ hne]

/-- Inside a text it finds them, and the input that shows nothing behind them. -/
theorem inputBefore_insert_inside {text : ComposingText} {first : List InputElement}
    (h : text.WellFormed tables) (hne : first ≠ [])
    (hafter : (text.insert tables first).WellFormed tables) (hend : ¬text.isAtEnd = true)
    (hshown : (text.insert tables first).cursor ≠ 0) :
    ∃ hidden, ⟨hidden, 0⟩ ∈ independentBoundaries tables
        ((text.forceInputCursor tables text.cursor).1.input.drop
          (text.forceInputCursor tables text.cursor).2) ∧
      (StartsHidden tables ((text.forceInputCursor tables text.cursor).1.input.drop
          (text.forceInputCursor tables text.cursor).2) → 0 < hidden) ∧
      (text.insert tables first).inputBefore tables = withoutSeparator
        (text.inputBefore tables ++ first ++ [.frozenSeparator] ++
          ((text.forceInputCursor tables text.cursor).1.input.drop
            (text.forceInputCursor tables text.cursor).2).take hidden) := by
  have hinput := insert_input h hne
  rw [if_neg hend, ← List.append_assoc (text.inputBefore tables)] at hinput
  generalize hrest : (text.forceInputCursor tables text.cursor).1.input.drop
    (text.forceInputCursor tables text.cursor).2 = rest at hinput ⊢
  have hone := insert_surface h hne
  have hcursor := h.cursor_le
  have hlt : text.cursor < text.surface.length := by
    refine lt_of_le_of_ne hcursor fun heq => hend ?_
    exact decide_eq_true heq
  have hinside : (text.insert tables first).cursor < (text.insert tables first).surface.length := by
    rw [hone.1, hone.2, List.length_append, List.length_drop]
    omega
  -- the separator seals the first call's elements
  generalize hsealed : text.inputBefore tables ++ first ++ [.frozenSeparator] = sealed at hinput ⊢
  have hends : Ends tables sealed := hsealed ▸ ends_frozen _ InputElement.frozenSeparator rfl
  have hconvert : (convertElements tables sealed).length = (text.insert tables first).cursor := by
    rw [hone.2, ← hsealed, convert_frozenSeparator]
  have hquiet : ∀ element ∈ sealed ++ rest, element.Quiet tables := hinput ▸ hafter.coherent.quiet
  have hmem := mem_independentBoundaries_of_ends hends rest
    fun element hin => hquiet element (List.mem_append_right _ hin)
  have hmem' : ⟨sealed.length, (text.insert tables first).cursor⟩ ∈
      independentBoundaries tables (text.insert tables first).input := by
    rw [hinput, ← hconvert]
    exact hmem
  obtain ⟨last, hforced, hlast, hgreatest⟩ := forceInputCursor_of_boundary hafter.coherent
    (Nat.pos_of_ne_zero hshown) hinside hmem'
  have hle : sealed.length ≤ last := hgreatest _ hmem' rfl
  have hsplit := mem_independentBoundaries_append rest hquiet hmem
  rw [← hinput, hconvert] at hsplit
  refine ⟨last - sealed.length, ?_, ?_, ?_⟩
  · rw [← hsplit, Nat.add_zero, Nat.add_sub_cancel' hle]
    exact hlast
  · rintro ⟨position, hpositive, hposition⟩
    have hbehind := hgreatest _ ((hsplit position 0).mpr hposition) rfl
    simp only at hbehind
    omega
  · rw [inputBefore_eq hafter.coherent, hforced, hinput]
    dsimp only
    rw [List.take_append, List.take_of_length_le hle]

theorem convert_sealed (tables : InputTableRegistry) (before : List InputElement)
    {after : List InputElement} (hq : ∀ element ∈ after, element.Quiet tables) :
    convertElements tables (before ++ [.frozenSeparator] ++ after) =
      convertElements tables before ++ convertElements tables after := by
  rw [(ends_frozen _ InputElement.frozenSeparator rfl).convert_append _ hq, convert_frozenSeparator]

/-- Hidden input behind the separator keeps the second elements apart. -/
theorem convert_behind_hidden {before hidden after : List InputElement} (hne : hidden ≠ [])
    (hnothing : convertElements tables hidden = [])
    (hqhidden : ∀ element ∈ hidden, element.Quiet tables)
    (hqafter : ∀ element ∈ after, element.Quiet tables) :
    convertElements tables (withoutSeparator (before ++ [.frozenSeparator] ++ hidden) ++ after) =
      convertElements tables before ++ convertElements tables after := by
  have hwithout : convertElements tables (withoutSeparator hidden) = [] := by
    rw [convert_withoutSeparator, hnothing]
  have hsub : ∀ element ∈ withoutSeparator hidden, element ∈ hidden := by
    unfold withoutSeparator
    split
    · exact fun element hin => List.dropLast_subset hidden hin
    · exact fun element hin => hin
  rw [withoutSeparator_append _ hne, List.append_assoc, convert_sealed tables before
    (List.forall_mem_append.mpr ⟨fun element hin => hqhidden element (hsub element hin), hqafter⟩),
    apart_of_hidden hwithout hqafter, hwithout, List.nil_append]

/-- The second call finds the place of the first one unless that ended in a frozen separator at
the end of the text, or the text starts with hidden input; and even then the second elements must
convert together with the first for a difference to show. -/
theorem insertsAsOne_iff_apart {text : ComposingText} {first second : List InputElement}
    (h : text.WellFormed tables) (hvisible : ¬text.HidesInput) (hfirst : first ≠ [])
    (hsecond : second ≠ []) (hqfirst : ∀ element ∈ first, element.Quiet tables)
    (hqsecond : ∀ element ∈ second, element.Quiet tables) :
    InsertsAsOne tables text first second ↔
      (text.isAtEnd = true → first.getLast? = some .frozenSeparator →
        Apart tables (text.inputBefore tables ++ first.dropLast) second) ∧
      (text.cursor = 0 → ¬text.isAtEnd = true → StartsHidden tables text.input →
        Apart tables first second) := by
  have hafter := insert_wellFormed h hqfirst fun _ => hvisible
  have hone := insert_surface h hfirst
  rw [insertsAsOne_iff h hfirst hsecond hafter, ← List.append_assoc]
  by_cases hshown : (text.insert tables first).cursor = 0
  · -- nothing is shown before the cursor, which the second elements then stand alone behind
    have hnothing : convertElements tables (text.inputBefore tables ++ first) = [] :=
      List.eq_nil_of_length_eq_zero (hone.2.symm.trans hshown)
    have hleft := apart_of_hidden hnothing hqsecond
    rw [inputBefore_of_start hshown]
    refine ⟨fun _ => ⟨fun _ hlast => ?_, fun hstart _ _ => ?_⟩, fun _ => ?_⟩
    · refine apart_of_hidden ?_ hqsecond
      have hwithout := convert_withoutSeparator tables (text.inputBefore tables ++ first)
      rwa [withoutSeparator_append _ hfirst, withoutSeparator, if_pos hlast, hnothing] at hwithout
    · rw [inputBefore_of_start hstart] at hleft
      exact hleft
    · rw [hleft, hnothing]
      rfl
  · by_cases hend : text.isAtEnd = true
    · rw [inputBefore_insert_end h hvisible hfirst hafter hend hshown]
      by_cases hlast : first.getLast? = some .frozenSeparator
      · have hsplit : first = first.dropLast ++ [.frozenSeparator] := by
          rw [← List.dropLast_append_getLast? _ hlast]
          simp
        have hboth : convertElements tables (text.inputBefore tables ++ first ++ second) =
            convertElements tables (text.inputBefore tables ++ first.dropLast) ++
              convertElements tables second := by
          rw [← convert_sealed tables _ hqsecond, List.append_assoc _ first.dropLast, ← hsplit]
        rw [hboth, withoutSeparator, if_pos hlast]
        exact ⟨fun hsame => ⟨fun _ _ => hsame.symm, fun _ hinside => absurd hend hinside⟩,
          fun hapart => (hapart.1 hend hlast).symm⟩
      · rw [withoutSeparator, if_neg hlast]
        exact ⟨fun _ => ⟨fun _ hsome => absurd hsome hlast, fun _ hinside => absurd hend hinside⟩,
          fun _ => rfl⟩
    · obtain ⟨hidden, hmem, hpositive, hbefore⟩ :=
        inputBefore_insert_inside h hfirst hafter hend hshown
      rw [hbefore]
      by_cases hzero : hidden = 0
      · rw [hzero, List.take_zero, List.append_nil, withoutSeparator_concat]
        refine ⟨fun _ => ⟨fun hlast => absurd hlast hend, fun hstart _ hstarts => ?_⟩, fun _ => rfl⟩
        have hforced : text.forceInputCursor tables text.cursor = (text, 0) := if_pos hstart
        rw [hforced] at hpositive
        exact absurd (hpositive hstarts) (by omega)
      · have hstart : text.cursor = 0 := by
          by_contra hinside
          have hlt : text.cursor < text.surface.length :=
            lt_of_le_of_ne h.cursor_le fun heq => hend (decide_eq_true heq)
          exact forceInputCursor_visible h.coherent (Nat.pos_of_ne_zero hinside) hlt
            ⟨hidden, Nat.pos_of_ne_zero hzero, hmem⟩
        have hforced : text.forceInputCursor tables text.cursor = (text, 0) := if_pos hstart
        rw [hforced, List.drop_zero] at hmem ⊢
        have hboundary := h.coherent.isBoundary hmem
        have hnothing : convertElements tables (text.input.take hidden) = [] :=
          List.eq_nil_of_length_eq_zero hboundary.surface
        have hne : text.input.take hidden ≠ [] := by
          have hle := hboundary.le
          refine List.ne_nil_of_length_pos ?_
          rw [List.length_take]
          simp only at hle
          omega
        rw [convert_behind_hidden hne hnothing
          (fun element hin => h.coherent.quiet element (List.mem_of_mem_take hin)) hqsecond,
          inputBefore_of_start hstart, List.nil_append]
        refine ⟨fun hsame => ⟨fun hlast => absurd hlast hend, fun _ _ _ => hsame⟩, fun hapart => ?_⟩
        exact hapart.2 hstart hend ⟨hidden, Nat.pos_of_ne_zero hzero, hmem⟩

/-- The second call finds where the first one stopped, or what it finds instead converts alike. -/
structure FindsItsPlace (tables : InputTableRegistry) (text : ComposingText)
    (first second : List InputElement) : Prop where
  /-- A frozen separator that the first elements end in is taken for one an edit left. -/
  separator : text.isAtEnd = true → first.getLast? = some .frozenSeparator →
    Apart tables (text.inputBefore tables ++ first.dropLast) second
  /-- Before a text that starts with hidden input the second elements come behind that input. -/
  start : text.cursor = 0 → ¬text.isAtEnd = true → StartsHidden tables text.input →
    Apart tables first second

/-- However the text was edited, as long as nothing was inserted into hidden input, elements typed
in two calls show what they show in one exactly where the second call finds its place. -/
theorem batching_iff (unicode : UnicodeTable) (tables : InputTableRegistry) (text : ComposingText)
    (h : Operated unicode tables (InsertsSafely unicode tables) text) (hvisible : ¬text.HidesInput)
    (first second : List InputElement) (hfirst : first ≠ []) (hsecond : second ≠ [])
    (hquiet : ∀ element ∈ first ++ second, element.Quiet tables) :
    InsertsAsOne tables text first second ↔ FindsItsPlace tables text first second := by
  have hwell := h.wellFormed fun _ _ hsafe => hsafe
  obtain ⟨hqfirst, hqsecond⟩ := List.forall_mem_append.mp hquiet
  rw [insertsAsOne_iff_apart hwell hvisible hfirst hsecond hqfirst hqsecond]
  exact ⟨fun hapart => ⟨hapart.1, hapart.2⟩, fun hfinds => ⟨hfinds.separator, hfinds.start⟩⟩

theorem insertStr_safely (unicode : UnicodeTable) (tables : InputTableRegistry)
    {text : ComposingText} (hvisible : ¬text.HidesInput) (value : Text)
    (inputStyle : Input.InputStyle) :
    InsertsSafely unicode tables text (.insertStr value inputStyle) := by
  refine ⟨fun element hin => quiet_of_piece_ne ?_, fun _ => hvisible⟩
  obtain ⟨character, -, rfl⟩ := List.mem_map.mp hin
  exact InputPiece.noConfusion

def silentTables : InputTableRegistry := romajiTables [(['x'], []), (['k', 'a'], ['か'])]

/-- `x`, which shows nothing, and `a`, typed at once, with the cursor before them. -/
def hiddenStartText : ComposingText :=
  (new.edit .kana silentTables (.insertStr ['x', 'a'] .romanToKana)).edit .kana silentTables
    (.moveCursor (-1))

theorem hiddenStartText_operated :
    Operated .kana silentTables (InsertsSafely .kana silentTables) hiddenStartText :=
  .edit _ (.edit _ .new (insertStr_safely .kana silentTables (fun h => h.2 rfl) _ _))
    ⟨fun _ hin => absurd hin List.not_mem_nil, fun h => absurd rfl h⟩

/-- `k` and `a` are `か` in one call, and not in two. -/
theorem hidden_start_splits :
    ¬∀ (unicode : UnicodeTable) (tables : InputTableRegistry) (text : ComposingText)
      (first second : List InputElement),
      Operated unicode tables (InsertsSafely unicode tables) text → first ≠ [] → second ≠ [] →
        InsertsAsOne tables text first second := by
  intro hall
  have hsame := (hall .kana silentTables hiddenStartText [.character ['k'] .romanToKana]
    [.character ['a'] .romanToKana] hiddenStartText_operated (List.cons_ne_nil _ _)
    (List.cons_ne_nil _ _)).1
  exact absurd hsame (by decide +kernel)

/-- Before `a`, where the text starts with it. -/
theorem batching_of_ka :
    InsertsAsOne silentTables (new.edit .kana silentTables (.insertStr ['a'] .romanToKana))
      [.character ['k'] .romanToKana] [.character ['a'] .romanToKana] := by
  have hreach : Operated .kana silentTables (InsertsSafely .kana silentTables)
      (new.edit .kana silentTables (.insertStr ['a'] .romanToKana)) :=
    .edit _ .new (insertStr_safely .kana silentTables (fun h => h.2 rfl) _ _)
  refine (batching_iff .kana silentTables _ hreach (by decide +kernel) _ _ (List.cons_ne_nil _ _)
    (List.cons_ne_nil _ _) ?_).mpr ⟨fun _ hlast => ?_, fun hstart => ?_⟩
  · intro element hin
    simp only [List.cons_append, List.nil_append, List.mem_cons, List.not_mem_nil, or_false] at hin
    rcases hin with rfl | rfl <;> exact quiet_of_piece_ne InputPiece.noConfusion
  · exact absurd hlast (by decide +kernel)
  · exact absurd hstart (by decide +kernel)

end ComposingText

end BeanKey.Input
