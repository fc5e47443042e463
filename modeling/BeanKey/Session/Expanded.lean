import BeanKey.Session.Template

/-! Templates are expanded in place. The text comes out as in one pass over the original, and every
tag that was written is replaced by its own value. -/
namespace BeanKey.Template
variable {Source : Type} {opening : Text} {replacement : Text → Source → Option Text × Source}

/-! ### One pass -/

variable (opening replacement)

/-- Every tag of a text is replaced, and what replaces it is not looked at again. -/
def onePass (text : Text) (source : Source) : Text × Source :=
  match _h : findTag opening text 0 with
  | none => (text, source)
  | some (start, stop) =>
    let tag := (text.drop start).take (stop - start)
    let result := replacement tag source
    let rest := onePass (text.drop stop) result.2
    (text.take start ++ result.1.getD tag ++ rest.1, rest.2)
termination_by text.length
decreasing_by
  have hinside := findTag_inside _h
  rw [List.length_drop]
  omega

variable {opening replacement}

theorem onePass_none {text : Text} (h : findTag opening text 0 = none) (source : Source) :
    onePass opening replacement text source = (text, source) := by
  rw [onePass]
  split
  · rfl
  · next htag =>
    rw [h] at htag
    cases htag

theorem onePass_some {text : Text} {start stop : Nat}
    (h : findTag opening text 0 = some (start, stop))
    (source : Source) :
    onePass opening replacement text source =
      (text.take start ++
          (replacement ((text.drop start).take (stop - start)) source).1.getD
            ((text.drop start).take (stop - start)) ++
          (onePass opening replacement (text.drop stop)
            (replacement ((text.drop start).take (stop - start)) source).2).1,
        (onePass opening replacement (text.drop stop)
          (replacement ((text.drop start).take (stop - start)) source).2).2) := by
  rw [onePass]
  split
  · next htag =>
    rw [h] at htag
    cases htag
  · next htag =>
    rw [h] at htag
    obtain ⟨rfl, rfl⟩ := Prod.mk.inj (Option.some.inj htag)
    rfl

/-- A tag is found where it stands in the text that is left. -/
theorem findTag_drop (output : Text) (searchFrom : Nat) :
    findTag opening output searchFrom =
      (findTag opening (output.drop searchFrom) 0).map fun place =>
        (searchFrom + place.1, searchFrom + place.2) := by
  simp only [findTag, Option.bind_eq_bind, Nat.zero_add, List.drop_drop]
  cases Scanning.find opening (output.drop searchFrom) with
  | none => rfl
  | some relativeStart =>
    simp only [Option.bind_some]
    cases Scanning.find ['>'] (output.drop (searchFrom + relativeStart)) with
    | none => rfl
    | some relativeEnd => simp [Nat.add_assoc]

variable (opening replacement) in
/-- What the loop makes of a text, if it goes on in one pass. -/
def Search.answer (state : Search Source) : Text × Source :=
  let rest := onePass opening replacement (state.output.drop state.searchFrom) state.source
  (state.output.take state.searchFrom ++ rest.1, rest.2)

theorem replaceTag_none {state : Search Source} (h : replaceTag opening replacement state = none) :
    state.answer opening replacement = (state.output, state.source) := by
  rw [replaceTag, Option.map_eq_none_iff, findTag_drop, Option.map_eq_none_iff] at h
  simp [Search.answer, onePass_none h]

/-- A round changes the text, and not what one pass makes of it. -/
theorem replaceTag_answer {state next : Search Source}
    (h : replaceTag opening replacement state = some next) :
    state.answer opening replacement = next.answer opening replacement := by
  obtain ⟨⟨start, stop⟩, htag, hnext⟩ := Option.map_eq_some_iff.mp h
  obtain ⟨hstart, hstop, hlength⟩ := findTag_inside htag
  simp only [state.replaceRange_eq hstop.le hlength] at hnext
  rw [findTag_drop] at htag
  obtain ⟨⟨first, last⟩, hfound, hplace⟩ := Option.map_eq_some_iff.mp htag
  obtain ⟨hfirst, hlast⟩ := Prod.mk.inj hplace
  have htext : (state.output.drop start).take (stop - start) =
      ((state.output.drop state.searchFrom).drop first).take (last - first) := by
    rw [List.drop_drop, hfirst]
    congr 1
    omega
  rw [htext] at hnext
  rw [Search.answer, onePass_some hfound, ← hnext]
  generalize replacement (((state.output.drop state.searchFrom).drop first).take (last - first))
    state.source = result
  generalize result.1.getD _ = shown
  have hfront : (state.output.take start ++ shown).length = start + shown.length := by
    rw [List.length_append, List.length_take, Nat.min_eq_left (by omega)]
  have htake : state.output.take start =
      state.output.take state.searchFrom ++ (state.output.drop state.searchFrom).take first := by
    rw [← hfirst, List.take_add]
  simp only [Search.answer, List.drop_drop]
  rw [List.drop_left' hfront, List.take_left' hfront, htake, hlast]
  simp only [List.append_assoc]

theorem replaceFrom_answer (state : Search Source) :
    ((replaceFrom opening replacement state).output,
      (replaceFrom opening replacement state).source) =
      state.answer opening replacement := by
  induction state using replaceFrom.induct opening replacement with
  | case1 state hdone =>
    rw [replaceTag_none hdone, replaceFrom]
    split
    · rfl
    · next hnext =>
      rw [hdone] at hnext
      cases hnext
  | case2 state next hnext ih =>
    rw [replaceTag_answer hnext, ← ih, replaceFrom]
    split
    · next hdone =>
      rw [hdone] at hnext
      cases hnext
    · next other hother =>
      rw [hother] at hnext
      rw [Option.some.inj hnext]

/-- Tags are replaced in place as in one pass: what replaces a tag is not searched for tags. -/
theorem replaceTags_onePass (opening : Text) (replacement : Text → Source → Option Text × Source)
    (text : Text) (source : Source) :
    replaceTags opening replacement text source = onePass opening replacement text source := by
  rw [replaceTags, replaceFrom_answer, Search.answer, List.take_zero, List.drop_zero]
  rfl

/-! ### Templates -/

def HasTag (text : Text) : Prop := dateOpening <:+: text ∨ randomOpening <:+: text

instance : DecidablePred HasTag := fun _ => inferInstanceAs (Decidable (_ ∨ _))

/-- The moment and the random numbers that each text is expanded with. -/
structure Occasion (Moment Source Double : Type) where
  calendar : Text → Calendar Moment
  random : Random Source Double
  source : Text → Source

namespace Occasion
variable {Moment Double : Type} (occasion : Occasion Moment Source Double) (text : Text)

def expand : Text :=
  (expandTemplates (occasion.calendar text) occasion.random text (occasion.source text)).1

/-- Each date tag of the text is replaced by its date, and each random tag of what comes out by its
value. -/
def filled : Text :=
  let dated := onePass dateOpening
    (fun tag source => (expandDateTemplate (occasion.calendar text) tag, source)) text
    (occasion.source text)
  (onePass randomOpening (expandRandomTemplate occasion.random) dated.1 dated.2).1

theorem expand_eq_filled : occasion.expand text = occasion.filled text := by
  rw [expand, expandTemplates, filled]
  simp only [replaceTags_onePass]

variable {text} in
theorem filled_of_plain (h : ¬HasTag text) : occasion.filled text = text := by
  rw [HasTag, not_or] at h
  have hnone : ∀ opening : Text, ¬opening <:+: text → findTag opening text 0 = none := by
    intro opening hopening
    rw [← Scanning.find_isSome, Option.not_isSome_iff_eq_none] at hopening
    simp [findTag, hopening]
  simp only [filled, onePass_none (hnone _ h.1), onePass_none (hnone _ h.2)]

end Occasion

end BeanKey.Template
