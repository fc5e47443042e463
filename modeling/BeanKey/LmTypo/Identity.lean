import BeanKey.Input.Romaji
import BeanKey.LmTypo.Booked

/-! Keys that are taken as they were typed in romaji: what the typo search reads of them is what the
composing text shows. -/
namespace BeanKey.LmTypo
open BeanKey.Input

section
variable {unicode : UnicodeTable} {table : InputTable} {pieces : Grapheme → Prop}

/-- The table is one of romaji, and its characters and the typed keys stay apart in any order. -/
structure Typable (unicode : UnicodeTable) (table : InputTable)
    (pieces : Grapheme → Prop) : Prop where
  romaji : table.Romaji
  apart : Apart unicode pieces
  written : ∀ piece, table.Written piece → pieces piece
  asked : ∀ mapping ∈ table.mappings, ∀ piece, .piece (.character piece) ∈
    mapping.key → pieces piece

variable (h : Typable unicode table pieces)
include h

/-! ### Texts by their graphemes -/

theorem Typable.graphemes_flatten {text : List Grapheme} (htext : ∀ piece ∈ text, pieces piece) :
    graphemes unicode text.flatten = text := h.apart text htext

theorem Typable.pieces_typed {text : List Grapheme} (htext : ∀ piece ∈ text, pieces piece) :
    ∀ piece ∈ table.typed text, pieces piece := by
  induction text using List.reverseRecOn with
  | nil => simp [InputTable.typed]
  | append_singleton text value ih =>
    intro piece hin
    rw [InputTable.typed_concat] at hin
    rcases h.romaji.mem_apply hin with hbuffer | rfl | hwritten
    · exact ih (fun piece hin => htext piece (List.mem_append_left _ hin)) piece hbuffer
    · exact htext piece (by simp)
    · exact h.written piece hwritten

theorem Typable.applied_flatten {buffer : List Grapheme} (hbuffer : ∀ piece ∈ buffer, pieces piece)
    (added : InputPiece) :
    applied unicode table buffer.flatten added = (table.apply buffer added).1.flatten := by
  rw [applied, h.graphemes_flatten hbuffer]

theorem Typable.applyInputTable_flatten {text : List Grapheme}
    (htext : ∀ piece ∈ text, pieces piece) :
    applyInputTable unicode text.flatten table = toKatakana (table.typed text).flatten := by
  rw [applyInputTable, h.graphemes_flatten htext]
  congr 1
  induction text using List.reverseRecOn with
  | nil => rfl
  | append_singleton text value ih =>
    have hfront : ∀ piece ∈ text, pieces piece := fun piece hin =>
      htext piece (List.mem_append_left _ hin)
    rw [List.foldl_append, List.foldl_cons, List.foldl_nil, ih hfront,
      h.applied_flatten (h.pieces_typed hfront), InputTable.typed_concat]

/-! ### Continuations -/

omit h in
theorem matchesPending_iff {key : List KeyElement} {text : List Grapheme}
    (hlt : text.length < key.length) :
    matchesPending key text = true ↔ ∃ rest, rest ≠ [] ∧ key = characters text ++ rest := by
  induction text generalizing key with
  | nil =>
    have hne : key ≠ [] := List.ne_nil_of_length_pos (by omega)
    simp [matchesPending, characters, hne]
  | cons value text ih =>
    cases key with
    | nil => simp at hlt
    | cons element key =>
      have hshort : text.length < key.length := by simpa using hlt
      have hrest := ih hshort
      simp only [matchesPending, List.zip_cons_cons, List.all_cons, Bool.and_eq_true,
        decide_eq_true_eq] at hrest ⊢
      rw [hrest]
      constructor
      · rintro ⟨rfl, rest, hne, rfl⟩
        exact ⟨rest, hne, rfl⟩
      · rintro ⟨rest, hne, heq⟩
        obtain ⟨hvalue, hkey⟩ := List.cons.inj heq
        exact ⟨hvalue, rest, hne, hkey⟩

omit h in
theorem characters_of_mapM {key : List KeyElement} {text : List Grapheme}
    (hkey : (key.mapM fun element =>
      match element with
      | .piece (.character value) => some value
      | _ => none) = some text) : key = characters text := by
  have hall := Loop.mapM_eq_some.mp hkey
  clear hkey
  induction hall with
  | nil => rfl
  | cons helement _ ih =>
    rw [ih]
    split at helement
    · cases helement
      rfl
    · cases helement

/-- A key that the text is the proper beginning of goes on behind the text's graphemes. -/
theorem Typable.continues_of_possibleNexts {text : List Grapheme}
    (htext : ∀ piece ∈ text, pieces piece)
    (hnexts : Session.possibleNexts table text.flatten ≠ []) : Continues table text := by
  obtain ⟨next, hnext⟩ := List.exists_mem_of_ne_nil _ hnexts
  obtain ⟨mapping, hmem, hmapping⟩ := List.mem_filterMap.mp hnext
  obtain ⟨key, hkey, hrest⟩ := Option.bind_eq_some_iff.mp hmapping
  split at hrest
  · cases hrest
  · next hproper =>
    simp only [not_or, Nat.not_le, not_not, List.isPrefixOf_iff_prefix] at hproper
    obtain ⟨hne, hlength, hprefix⟩ := hproper
    obtain ⟨front, final, rfl⟩ : ∃ front final, key = front ++ [final] := by
      refine (List.eq_nil_or_concat key).elim (fun hnil => ?_) fun ⟨front, final, hend⟩ =>
        ⟨front, final, by rw [hend, List.concat_eq_append]⟩
      rw [hnil] at hlength
      simp at hlength
    have hspelled : mapping.key = characters front ++ [.piece (.character final)] := by
      rw [characters_of_mapM hkey, characters_append]
      rfl
    obtain ⟨hwaits, c, rfl⟩ := (h.romaji.rules mapping hmem).last hspelled
    have hasked : ∀ piece ∈ front, pieces piece := fun piece hin => h.asked mapping hmem piece (by
      rw [hspelled]
      exact List.mem_append_left _ (List.mem_map_of_mem hin))
    -- the text is shorter than the key, so it is the beginning of the consonants
    rw [List.flatten_append, List.flatten_singleton] at hprefix hlength
    have hfront : text.flatten <+: front.flatten := by
      refine (List.prefix_concat_iff.mp hprefix).resolve_left fun heq => ?_
      rw [heq] at hlength
      exact absurd hlength (lt_irrefl _)
    have hletters : letters text.flatten <+: front := by
      rw [← hwaits.eq_letters]
      exact hfront.map _
    have htext' : text = letters text.flatten := by
      have hsplit := h.graphemes_flatten fun piece hin => hasked piece (hletters.subset hin)
      rw [flatten_letters, h.graphemes_flatten htext] at hsplit
      exact hsplit
    obtain ⟨tail, htail⟩ := hletters
    rw [← htext'] at htail
    refine ⟨fun hnil => hne (by rw [hnil]; rfl), mapping, hmem,
      characters tail ++ [.piece (.character [c])], by simp, ?_⟩
    rw [hspelled, ← htail, characters_append, List.append_assoc]

theorem Typable.hasContinuation_iff {text : List Grapheme} (htext : ∀ piece ∈ text, pieces piece)
    (hne : text ≠ []) : hasContinuation unicode text.flatten table = true ↔
    Continues table text := by
  rw [hasContinuation, h.graphemes_flatten htext, Bool.or_eq_true, decide_eq_true_eq,
    List.any_eq_true]
  constructor
  · rintro (hnexts | ⟨mapping, hmem, hmatches⟩)
    · exact h.continues_of_possibleNexts htext hnexts
    · obtain ⟨hlt, hpending⟩ := (Bool.and_eq_true _ _).mp hmatches
      obtain ⟨rest, hrest, hkey⟩ := (matchesPending_iff (of_decide_eq_true hlt)).mp hpending
      exact ⟨hne, mapping, hmem, rest, hrest, hkey⟩
  · rintro ⟨-, mapping, hmem, rest, hrest, hkey⟩
    have hlt : text.length < mapping.key.length := by
      have := List.length_pos_iff.mpr hrest
      rw [hkey, List.length_append]
      simp only [characters, List.length_map]
      omega
    refine .inr ⟨mapping, hmem, ?_⟩
    rw [Bool.and_eq_true]
    exact ⟨decide_eq_true hlt, (matchesPending_iff hlt).mpr ⟨rest, hrest, hkey⟩⟩

/-! ### The pending end -/

omit h in
/-- The ends of a text are tried from the longest on. -/
theorem find_tails (accepts : Text → Bool) (text : List Grapheme) :
    ∃ ending, ending <:+ text ∧ (ending = [] ∨ accepts ending.flatten) ∧
      ((text.tails.dropLast.map List.flatten).find? accepts).getD [] = ending.flatten ∧
      ∀ other, other <:+ text → other ≠ [] → accepts other.flatten → other.length ≤
        ending.length := by
  induction text with
  | nil =>
    refine ⟨[], List.suffix_refl _, .inl rfl, rfl, fun other hother hne => ?_⟩
    exact absurd (List.suffix_nil.mp hother) hne
  | cons value rest ih =>
    have htails : (value :: rest).tails.dropLast = (value :: rest) :: rest.tails.dropLast := by
      rw [List.tails_cons, List.dropLast_cons_of_ne_nil]
      cases rest <;> simp
    rw [htails, List.map_cons, List.find?_cons]
    cases haccepts : accepts (value :: rest).flatten with
    | true =>
      exact ⟨value :: rest, List.suffix_refl _, .inr haccepts, rfl,
        fun other hother _ _ => hother.length_le⟩
    | false =>
      obtain ⟨ending, hending, hvalid, hfound, hlongest⟩ := ih
      refine ⟨ending, hending.trans (List.suffix_cons _ _), hvalid, hfound, ?_⟩
      intro other hother hne hother'
      rcases List.suffix_cons_iff.mp hother with rfl | hsuffix
      · rw [haccepts] at hother'
        cases hother'
      · exact hlongest other hsuffix hne hother'

/-- What is pending behind a text: the longest end that goes on, where the converted text still ends
with it. -/
theorem Typable.pendingSuffix_spec {text : List Grapheme} (htext : ∀ piece ∈ text, pieces piece)
    (converted : Text) :
    ∃ ending, ending <:+ text ∧
      (ending = [] ∨ Continues table ending ∧ ending.flatten <:+ converted) ∧
      pendingSuffix unicode text.flatten converted table = ending.flatten ∧
      ∀ other, other <:+ text → Continues table other → other.flatten <:+ converted →
        other.length ≤ ending.length := by
  have haccepts : ∀ other, other <:+ text → other ≠ [] →
      ((hasContinuation unicode other.flatten table &&
        applyInputTable unicode other.flatten table = other.flatten &&
          other.flatten.isSuffixOf converted) = true ↔
        Continues table other ∧ other.flatten <:+ converted) := by
    intro other hother hne
    have hpieces : ∀ piece ∈ other, pieces piece := fun piece hin => htext piece (hother.subset hin)
    rw [Bool.and_eq_true, Bool.and_eq_true, h.hasContinuation_iff hpieces hne, decide_eq_true_eq,
      List.isSuffixOf_iff_suffix, and_assoc]
    refine and_congr_right fun hcontinues => and_iff_right ?_
    have hwaits := h.romaji.waits hcontinues
    rw [h.applyInputTable_flatten hpieces, h.romaji.typed_waits hwaits, hwaits.toKatakana]
  rw [pendingSuffix, h.graphemes_flatten htext]
  obtain ⟨ending, hending, hvalid, hfound, hlongest⟩ := find_tails (fun suffix =>
    hasContinuation unicode suffix table && applyInputTable unicode suffix table = suffix &&
      suffix.isSuffixOf converted) text
  refine ⟨ending, hending, ?_, hfound, ?_⟩
  · by_cases hne : ending = []
    · exact .inl hne
    · exact .inr ((haccepts ending hending hne).mp (hvalid.resolve_left hne))
  · intro other hother hcontinues hconverted
    exact hlongest other hother hcontinues.1
      ((haccepts other hother hcontinues.1).mpr ⟨hcontinues, hconverted⟩)

/-! ### One key -/

/-- The text of a buffer that the search has read: what it emitted, and what is pending. -/
structure Follows (table : InputTable) (pieces : Grapheme → Prop) (before pending : List Grapheme) :
    Prop where
  pieces : ∀ piece ∈ before ++ pending, pieces piece
  waits : pending = [] ∨ Continues table pending
  longest : ∀ part, part <:+ before ++ pending → Continues table part → part.length ≤ pending.length

omit h in
theorem concat_suffix_concat {α : Type*} {xs ys : List α} {x y : α} :
    xs ++ [x] <:+ ys ++ [y] ↔ x = y ∧ xs <:+ ys := by
  constructor
  · rintro ⟨front, heq⟩
    rw [← List.append_assoc] at heq
    obtain ⟨hfront, hlast⟩ := List.append_inj' heq rfl
    exact ⟨(List.cons.inj hlast).1, front, hfront⟩
  · rintro ⟨rfl, front, rfl⟩
    exact ⟨front, by rw [List.append_assoc]⟩

omit h in
/-- What waits does not end where something that is no consonant was written. -/
theorem not_suffix_final {part : List Grapheme} (hwaits : Waits part) (hne : part ≠ [])
    {final : Char}
    (hfinal : isConsonant [final] = false) (text : Text) (buffer : List Grapheme) :
    ¬part.flatten <:+ text ++ [katakanaChar final] ∧ ¬part <:+ buffer ++ [[final]] := by
  obtain ⟨front, value, hpart⟩ := (List.eq_nil_or_concat part).resolve_left hne
  rw [List.concat_eq_append] at hpart
  have hconsonant : isConsonant value := hwaits.1 value (by rw [hpart]; simp)
  obtain ⟨c, rfl, -⟩ := exists_consonant hconsonant
  rw [hpart, List.flatten_append, List.flatten_singleton, concat_suffix_concat,
    concat_suffix_concat]
  constructor
  · rintro ⟨rfl, -⟩
    rw [isConsonant_katakanaChar, hfinal] at hconsonant
    cases hconsonant
  · rintro ⟨heq, -⟩
    rw [heq, hfinal] at hconsonant
    cases hconsonant

omit h in
theorem toKatakana_append (text more : Text) :
    toKatakana (text ++ more) = toKatakana text ++ toKatakana more :=
  List.map_append

/-- An end that goes on is an end of the converted text where it is one of the buffer. -/
theorem Typable.suffix_written {pending : List Grapheme} {value : Grapheme} {part : List Grapheme}
    (hpart : part <:+ pending ++ [value]) (hcontinues : Continues table part) :
    part.flatten <:+ toKatakana (table.apply pending (.character value)).1.flatten ↔
      part <:+ (table.apply pending (.character value)).1 := by
  have hwaits := h.romaji.waits hcontinues
  rcases h.romaji.apply_cases pending value
    with hkept | ⟨start, kana, final, rest, -, -, hfinal, hrest,
    -, hwritten⟩
  · rw [hkept]
    refine iff_of_true ?_ hpart
    obtain ⟨front, hfront⟩ := hpart
    rw [← hfront, List.flatten_append, toKatakana_append, hwaits.toKatakana]
    exact List.suffix_append _ _
  · rw [hwritten, ← List.append_assoc]
    generalize pending.take (pending.length - start.length) ++ kana = buffer
    rcases hrest with rfl | rfl
    · -- nothing goes on behind the kana
      obtain ⟨htext, hbuffer⟩ := not_suffix_final hwaits hcontinues.1 hfinal
        (toKatakana buffer.flatten) buffer
      refine iff_of_false ?_ hbuffer
      rw [List.flatten_append, toKatakana_append]
      exact htext
    · -- only the key itself may go on behind the kana
      obtain ⟨front, last, hsplit⟩ := (List.eq_nil_or_concat part).resolve_left hcontinues.1
      rw [List.concat_eq_append] at hsplit
      rw [hsplit] at hpart hwaits ⊢
      obtain ⟨rfl, -⟩ := concat_suffix_concat.mp hpart
      obtain ⟨c, rfl, -⟩ := exists_consonant (hwaits.1 last (by simp))
      have hkept : toKatakana [c] = [c] :=
        (hwaits.part ⟨front, [], by simp⟩ : Waits [[c]]).toKatakana
      have htext : toKatakana (buffer ++ [[final], [c]]).flatten =
          toKatakana buffer.flatten ++ [katakanaChar final] ++ [c] := by
        rw [List.flatten_append, toKatakana_append, List.append_assoc]
        exact congrArg (toKatakana buffer.flatten ++ katakanaChar final :: ·) hkept
      have hbuffer : buffer ++ [[final], [c]] = buffer ++ [[final]] ++ [[c]] := by simp
      rw [htext, hbuffer, List.flatten_append, List.flatten_singleton, concat_suffix_concat,
        concat_suffix_concat]
      by_cases hfront : front = []
      · rw [hfront]
        exact iff_of_true ⟨rfl, List.nil_suffix⟩ ⟨rfl, List.nil_suffix⟩
      · obtain ⟨hnot, hnot'⟩ := not_suffix_final (hwaits.part ⟨[], [[c]], rfl⟩) hfront hfinal
          (toKatakana buffer.flatten) buffer
        exact iff_of_false (fun hboth => hnot hboth.2) fun hboth => hnot' hboth.2

/-- A key sees no more of the buffer than what is pending. -/
theorem Typable.apply_pending {before pending : List Grapheme}
    (hfollows : Follows table pieces before pending)
    (value : Grapheme) : (table.apply (before ++ pending) (.character value)).1 =
      before ++ (table.apply pending (.character value)).1 := by
  rw [table.apply_append]
  rcases table.apply_spelled h.romaji.spelled (before ++ pending) (.character value)
    with ⟨-, hkept⟩ | ⟨mapping, start, last, progress, hwins, happly⟩
  · rw [hkept]
    exact Nat.zero_le _
  · rw [happly]
    by_cases hne : start = []
    · rw [hne]
      exact Nat.zero_le _
    · exact hfollows.longest start hwins.ends (hwins.continues hne)

/-- An end of the new buffer that goes on lies in what was pending and the key. -/
theorem Typable.ends_inside {before pending : List Grapheme}
    (hfollows : Follows table pieces before pending)
    {value : Grapheme} {part : List Grapheme}
    (hpart : part <:+ before ++ (table.apply pending (.character value)).1)
    (hcontinues : Continues table part) :
    part <:+ pending ++ [value] ∧ part <:+ (table.apply pending (.character value)).1 := by
  have hwaits := h.romaji.waits hcontinues
  obtain ⟨front, last, hsplit⟩ := (List.eq_nil_or_concat part).resolve_left hcontinues.1
  rw [List.concat_eq_append] at hsplit
  rcases h.romaji.apply_cases pending value
    with hkept | ⟨start, kana, final, rest, -, -, hfinal, hrest,
    -, hwritten⟩
  · rw [hkept, ← List.append_assoc, hsplit] at hpart
    obtain ⟨rfl, hfront⟩ := concat_suffix_concat.mp hpart
    have hpending : front <:+ pending := by
      by_cases hne : front = []
      · rw [hne]
        exact List.nil_suffix
      · have hle := hfollows.longest front hfront (hcontinues.of_start hne ⟨[last], hsplit.symm⟩)
        exact List.suffix_of_suffix_length_le hfront (List.suffix_append _ _) hle
    rw [hkept, hsplit]
    exact ⟨concat_suffix_concat.mpr ⟨rfl, hpending⟩, concat_suffix_concat.mpr ⟨rfl, hpending⟩⟩
  · rw [hwritten] at hpart ⊢
    generalize pending.take (pending.length - start.length) = kept at hpart ⊢
    rcases hrest with rfl | rfl
    · refine absurd ?_ (not_suffix_final hwaits hcontinues.1 hfinal [] (before ++ (kept ++ kana))).2
      simpa using hpart
    · have hbuffer : before ++ (kept ++ (kana ++ [[final], value])) =
          before ++ (kept ++ kana) ++ [[final]] ++ [value] := by simp
      rw [hbuffer, hsplit] at hpart
      obtain ⟨rfl, hfront⟩ := concat_suffix_concat.mp hpart
      -- the key alone, as the kana before it end what waits
      have hnil : front = [] := by
        by_contra hne
        have hfrontWaits : Waits front := hwaits.part ⟨[], [last], hsplit.symm⟩
        exact (not_suffix_final hfrontWaits hne hfinal [] _).2 hfront
      rw [hsplit, hnil]
      exact ⟨⟨pending, rfl⟩, ⟨kept ++ (kana ++ [[final]]), by simp⟩⟩

theorem Typable.flatten_ne_nil {text : List Grapheme} (hcontinues : Continues table text) :
    text.flatten ≠ [] := by
  intro hnil
  refine hcontinues.1 ?_
  rw [← (h.romaji.waits hcontinues).eq_letters, hnil]
  rfl

/-- One key: what it emits and leaves pending is what the table writes for it. -/
theorem Typable.consume_step {before pending : List Grapheme}
    (hfollows : Follows table pieces before pending)
    {value : Grapheme} (hvalue : pieces value) :
    ∃ emitted next, Follows table pieces (before ++ emitted) next ∧
      (table.apply (before ++ pending) (.character value)).1 = before ++ emitted ++ next ∧
      consumeWithEmission unicode pending.flatten value (some table) =
        (toKatakana emitted.flatten, next.flatten) := by
  have hpending : ∀ piece ∈ pending, pieces piece := fun piece hin =>
    hfollows.pieces piece (List.mem_append_right _ hin)
  have hraw : ∀ piece ∈ pending ++ [value], pieces piece := by
    intro piece hin
    rcases List.mem_append.mp hin with hold | hnew
    · exact hpending piece hold
    · exact List.mem_singleton.mp hnew ▸ hvalue
  have htyped : table.typed pending = pending := by
    rcases hfollows.waits with rfl | hcontinues
    · rfl
    · exact h.romaji.typed_waits (h.romaji.waits hcontinues)
  have hconverted : applyInputTable unicode (pending ++ [value]).flatten table =
      toKatakana (table.apply pending (.character value)).1.flatten := by
    rw [h.applyInputTable_flatten hraw, InputTable.typed_concat, htyped]
  have hwritten : ∀ piece ∈ (table.apply pending (.character value)).1, pieces piece := by
    intro piece hin
    rcases h.romaji.mem_apply hin with hold | rfl | hrule
    · exact hpending piece hold
    · exact hvalue
    · exact h.written piece hrule
  obtain ⟨next, hnext, hvalid, hsuffix, hlongest⟩ := h.pendingSuffix_spec hraw
    (toKatakana (table.apply pending (.character value)).1.flatten)
  have hends : next <:+ (table.apply pending (.character value)).1 := by
    rcases hvalid with rfl | ⟨hcontinues, hconverted⟩
    · exact List.nil_suffix
    · exact (h.suffix_written hnext hcontinues).mp hconverted
  obtain ⟨emitted, hemitted⟩ := hends
  refine ⟨emitted, next, ⟨?_, hvalid.imp id And.left, ?_⟩, ?_, ?_⟩
  · intro piece hin
    rw [List.append_assoc, hemitted] at hin
    rcases List.mem_append.mp hin with hold | hnew
    · exact hfollows.pieces piece (List.mem_append_left _ hold)
    · exact hwritten piece hnew
  · intro part hpart hcontinues
    rw [List.append_assoc, hemitted] at hpart
    obtain ⟨hinside, hbuffer⟩ := h.ends_inside hfollows hpart hcontinues
    exact hlongest part hinside hcontinues ((h.suffix_written hinside hcontinues).mpr hbuffer)
  · rw [h.apply_pending hfollows, ← hemitted, List.append_assoc]
  · rw [consumeWithEmission]
    have hflatten : pending.flatten ++ value = (pending ++ [value]).flatten := by simp
    dsimp only
    rw [hflatten, hconverted, hsuffix]
    by_cases hnil : next = []
    · rw [hnil, List.append_nil] at hemitted
      rw [hnil, List.flatten_nil, if_pos rfl, hemitted]
    · have hne : next.flatten ≠ [] := h.flatten_ne_nil (hvalid.resolve_left hnil).1
      rw [if_neg hne, graphemes_toKatakana, h.graphemes_flatten hwritten,
        h.graphemes_flatten fun piece hin => hraw piece (hnext.subset hin),
          List.length_map, ← hemitted,
        List.length_append, if_neg (by omega), Nat.add_sub_cancel, ← List.map_take, List.take_left]
      rw [toKatakana, List.map_flatten]
      rfl

/-- All keys: the search has emitted and left pending what the table makes of them. -/
theorem Typable.consume_run {keys : List Grapheme} (hkeys : ∀ key ∈ keys, pieces key) :
    ∃ before pending, Follows table pieces before pending ∧ table.typed keys = before ++ pending ∧
      keys.foldl (consume unicode (some table)) ([], []) =
        (toKatakana before.flatten, pending.flatten) := by
  induction keys using List.reverseRecOn with
  | nil =>
    refine ⟨[], [], ⟨by simp, .inl rfl, ?_⟩, rfl, rfl⟩
    intro part hpart hcontinues
    exact absurd (List.suffix_nil.mp hpart) hcontinues.1
  | append_singleton keys value ih =>
    obtain ⟨before, pending, hfollows, htyped, hrun⟩ :=
      ih fun key hin => hkeys key (List.mem_append_left _ hin)
    obtain ⟨emitted, next, hnext, hwritten, hconsumed⟩ :=
      h.consume_step hfollows (hkeys value (by simp))
    refine ⟨before ++ emitted, next, hnext, ?_, ?_⟩
    · rw [InputTable.typed_concat, htyped, hwritten]
    · rw [List.foldl_append, hrun, List.foldl_cons, List.foldl_nil, consume, hconsumed,
        List.flatten_append, toKatakana_append]

/-- The text that the search shows for the keys is the katakana of what the table makes of them. -/
theorem Typable.consume_text {keys : List Grapheme} (hkeys : ∀ key ∈ keys, pieces key) :
    (keys.foldl (consume unicode (some table)) ([], [])).1 ++
        (keys.foldl (consume unicode (some table)) ([], [])).2 =
      toKatakana (table.typed keys).flatten := by
  obtain ⟨before, pending, hfollows, htyped, hrun⟩ := h.consume_run hkeys
  have hkept : toKatakana pending.flatten = pending.flatten := by
    rcases hfollows.waits with rfl | hcontinues
    · rfl
    · exact (h.romaji.waits hcontinues).toKatakana
  rw [hrun, htyped, List.flatten_append, toKatakana_append, hkept]

end

end BeanKey.LmTypo
