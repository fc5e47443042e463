import BeanKey.Input.Rule
import BeanKey.Input.Run
import Mathlib.Data.List.Chain

/-! The rules of romaji: the consonants that wait for a rule, and what is written once one
answers. -/
namespace BeanKey.Input

/-! ### Waiting -/

def isConsonant (value : Grapheme) : Bool :=
  match value with
  | [c] => c.isLower && !(c ∈ ['a', 'i', 'u', 'e', 'o'])
  | _ => false

def stays (first second : Grapheme) : Bool :=
  first ≠ second && (first ≠ ['n'] || second = ['y']) && !(first = ['x'] && second = ['n']) &&
    !(first = ['z'] && second ∈ [['h'], ['j'], ['k'], ['l']])

/-- Consonants that are shown as they were typed. -/
def Waits (text : List Grapheme) : Prop :=
  (∀ value ∈ text, isConsonant value) ∧ text.IsChain fun first second => stays first second

instance (text : List Grapheme) : Decidable (Waits text) := inferInstanceAs (Decidable (_ ∧ _))

theorem Waits.part {text part : List Grapheme} (h : Waits text)
    (hpart : part <:+: text) : Waits part :=
  ⟨fun value hin => h.1 value (hpart.subset hin), List.IsChain.infix h.2 hpart⟩

theorem waits_n : Waits [['n']] := by decide

def letters (text : Text) : List Grapheme := text.map fun c => [c]

theorem letters_append (text more : Text) : letters (text ++ more) = letters text ++ letters more :=
  List.map_append

theorem letters_injective {text other : Text} (h : letters text = letters other) :
    text = other := by
  refine List.map_injective_iff.mpr (fun c d heq => ?_) h
  exact (List.cons.inj heq).1

theorem flatten_letters (text : Text) : (letters text).flatten = text := by
  induction text with
  | nil => rfl
  | cons c rest ih => exact congrArg (c :: ·) ih

theorem exists_consonant {value : Grapheme} (h : isConsonant value) :
    ∃ c, value = [c] ∧ c.isLower := by
  unfold isConsonant at h
  split at h
  · next c => exact ⟨c, rfl, (Bool.and_eq_true _ _ |>.mp h).1⟩
  · cases h

theorem Waits.eq_letters {text : List Grapheme} (h : Waits text) : letters text.flatten = text := by
  have hall := h.1
  clear h
  induction text with
  | nil => rfl
  | cons value rest ih =>
    obtain ⟨hvalue, hrest⟩ := List.forall_mem_cons.mp hall
    obtain ⟨c, rfl, -⟩ := exists_consonant hvalue
    exact congrArg ([c] :: ·) (ih hrest)

theorem toNat_le_of_isLower {c : Char} (h : c.isLower) : c.toNat ≤ 122 := by
  have hbounds : (decide (c.val ≥ 97) && decide (c.val ≤ 122)) = true := h
  rw [Bool.and_eq_true, decide_eq_true_eq, decide_eq_true_eq] at hbounds
  exact hbounds.2

/-- Katakana conversion keeps consonants, and makes none. -/
theorem isConsonant_katakanaChar (c : Char) : isConsonant [katakanaChar c] = isConsonant [c] := by
  by_cases h : 0x3041 ≤ c.toNat ∧ c.toNat ≤ 0x3096
  · have hlower : ∀ d : Char, 122 < d.toNat → d.isLower = false := by
      intro d hd
      by_contra hne
      exact absurd (toNat_le_of_isLower (Bool.eq_true_of_not_eq_false hne)) (by omega)
    have hkatakana : (Char.ofNat (c.toNat + 96)).toNat = c.toNat + 96 :=
      toNat_ofNat (.inl (by omega))
    rw [katakanaChar, if_pos h]
    simp only [isConsonant]
    rw [hlower c (by omega), hlower (Char.ofNat (c.toNat + 96)) (by omega), Bool.false_and,
      Bool.false_and]
  · rw [katakanaChar, if_neg h]

theorem Waits.toKatakana {text : List Grapheme} (h : Waits text) :
    toKatakana text.flatten = text.flatten := by
  rw [BeanKey.toKatakana]
  conv_rhs => rw [← List.map_id text.flatten]
  apply List.map_congr_left
  intro c hin
  obtain ⟨value, hvalue, hc⟩ := List.mem_flatten.mp hin
  obtain ⟨d, rfl, hlower⟩ := exists_consonant (h.1 value hvalue)
  rw [List.mem_singleton.mp hc]
  have := toNat_le_of_isLower hlower
  exact if_neg (by omega)

/-- The rules of romaji: kana for consonants and what closes them, `ny`, and the ends of `n`. -/
inductive Mapping.Romaji : Mapping → Prop
  | writes {start : List Grapheme} {last : Char} {kana rest : List Grapheme} {final : Char}
      (hstart : Waits start) (hlast : ¬Waits (start ++ [[last]]))
        (hfinal : isConsonant [final] = false)
      (hrest : rest = [] ∨ rest = [[last]]) :
      Romaji ⟨characters start ++ [.piece (.character [last])],
        (kana ++ [final] :: rest).map .character⟩
  | waiting : Romaji ⟨characters [['n']] ++ [.piece (.character ['y'])],
      [.character ['n'], .character ['y']]⟩
  | ending {start : List Grapheme} (hstart : Waits start) (value : List ValueElement) :
      Romaji ⟨characters start ++ [.piece .compositionSeparator], value⟩
  | wildcard : Romaji ⟨characters [['n']] ++ [.any], [.character ['ん'], .any]⟩

structure InputTable.Romaji (table : InputTable) : Prop where
  rules : ∀ mapping ∈ table.mappings, mapping.Romaji
  waiting : ⟨characters [['n']] ++ [.piece (.character ['y'])],
    [.character ['n'], .character ['y']]⟩ ∈
    table.mappings

theorem Mapping.Romaji.spelled {mapping : Mapping} (h : mapping.Romaji) : mapping.Spelled := by
  cases h with
  | writes => exact ⟨_, _, rfl, by simp⟩
  | waiting => exact ⟨_, _, rfl, by simp⟩
  | ending => exact ⟨_, _, rfl, by simp⟩
  | wildcard => exact ⟨_, _, rfl, by simp⟩

theorem InputTable.Romaji.spelled {table : InputTable} (h : table.Romaji) :
    ∀ mapping ∈ table.mappings, mapping.Spelled := fun mapping hmem =>
    (h.rules mapping hmem).spelled

theorem Mapping.Romaji.start {mapping : Mapping} (h : mapping.Romaji) :
    ∃ start last, Waits start ∧ mapping.key = characters start ++ [last] := by
  cases h with
  | writes hstart => exact ⟨_, _, hstart, rfl⟩
  | waiting => exact ⟨_, _, waits_n, rfl⟩
  | ending hstart => exact ⟨_, _, hstart, rfl⟩
  | wildcard => exact ⟨_, _, waits_n, rfl⟩

theorem characters_append (text rest : List Grapheme) :
    characters (text ++ rest) = characters text ++ characters rest := List.map_append

theorem characters_injective {text rest : List Grapheme} (h : characters text = characters rest) :
    text = rest := by
  refine List.map_injective_iff.mpr (fun value other heq => ?_) h
  cases heq
  rfl

theorem key_inj {start start' : List Grapheme} {last last' : KeyElement}
    (h : characters start ++ [last] = characters start' ++ [last']) : start' = start ∧
    last' = last := by
  obtain ⟨hstart, hlast⟩ := List.append_inj' h rfl
  exact ⟨(characters_injective hstart).symm, (List.cons.inj hlast).1.symm⟩

theorem Mapping.Romaji.last {mapping : Mapping} (h : mapping.Romaji) {start : List Grapheme}
    {value : Grapheme} (hkey : mapping.key = characters start ++ [.piece (.character value)]) :
    Waits start ∧ ∃ c, value = [c] := by
  cases h with
  | writes hstart =>
    obtain ⟨rfl, hlast⟩ := key_inj hkey
    cases hlast
    exact ⟨hstart, _, rfl⟩
  | waiting =>
    obtain ⟨rfl, hlast⟩ := key_inj hkey
    cases hlast
    exact ⟨waits_n, _, rfl⟩
  | ending =>
    obtain ⟨-, hlast⟩ := key_inj hkey
    cases hlast
  | wildcard =>
    obtain ⟨-, hlast⟩ := key_inj hkey
    cases hlast

/-! ### Continuations -/

def Continues (table : InputTable) (text : List Grapheme) : Prop :=
  text ≠ [] ∧ ∃ mapping ∈ table.mappings, ∃ rest, rest ≠ [] ∧ mapping.key = characters text ++ rest

section
variable {table : InputTable}

theorem Continues.of_start {text start : List Grapheme} (h : Continues table text)
    (hne : start ≠ [])
    (hstart : start <+: text) : Continues table start := by
  obtain ⟨-, mapping, hmem, rest, hrest, hkey⟩ := h
  obtain ⟨tail, rfl⟩ := hstart
  refine ⟨hne, mapping, hmem, characters tail ++ rest, by simp [hrest], ?_⟩
  rw [hkey, characters_append, List.append_assoc]

theorem InputTable.Romaji.waits (h : table.Romaji) {text : List Grapheme}
    (htext : Continues table text) :
    Waits text := by
  obtain ⟨-, mapping, hmem, rest, hrest, hkey⟩ := htext
  obtain ⟨start, last, hstart, hspelled⟩ := (h.rules mapping hmem).start
  obtain ⟨front, back, rfl⟩ := (List.eq_nil_or_concat rest).resolve_left hrest
  -- the last element of the key is not among the characters
  rw [hkey, List.concat_eq_append, ← List.append_assoc] at hspelled
  have hprefix : characters text <+: characters start := ⟨front, (List.append_inj' hspelled rfl).1⟩
  obtain ⟨part, hpart, hsame⟩ := List.prefix_map_iff.mp hprefix
  rw [characters_injective hsame]
  exact hstart.part hpart.isInfix

/-- What a rule asks for before its last element goes on. -/
theorem InputTable.Wins.continues {buffer : List Grapheme} {added : InputPiece} {mapping : Mapping}
    {start : List Grapheme} {last : KeyElement} {progress : MatchProgress}
    (h : table.Wins buffer added mapping start last progress) (hne : start ≠ []) :
    Continues table start :=
  ⟨hne, mapping, h.mem, [last], by simp, h.key⟩

/-! ### What is written -/

theorem written_map (key : List KeyElement) (value : List Grapheme) (wildcard : Option InputPiece) :
    Mapping.written ⟨key, value.map .character⟩ wildcard = value := by
  rw [Mapping.written, List.filterMap_map]
  exact List.filterMap_some

theorem take_suffix {buffer start : List Grapheme} (h : start <:+ buffer) :
    buffer.take (buffer.length - start.length) ++ start = buffer := by
  obtain ⟨front, rfl⟩ := h
  rw [List.length_append, Nat.add_sub_cancel, List.take_left]

/-- A piece that a rule answers is kept behind the buffer, or closes what waited: the kana end with
something that is no consonant, and at most the piece follows. -/
theorem InputTable.Romaji.apply_cases (h : table.Romaji) (buffer : List Grapheme)
    (value : Grapheme) :
    (table.apply buffer (.character value)).1 = buffer ++ [value] ∨
      ∃ start kana final rest, (start = [] ∨ Continues table start) ∧ start <:+ buffer ∧
        isConsonant [final] = false ∧ (rest = [] ∨ rest = [value]) ∧ ¬Waits (start ++ [value]) ∧
          (table.apply buffer (.character value)).1 =
            buffer.take (buffer.length - start.length) ++ (kana ++ [final] :: rest) := by
  rcases table.apply_spelled h.spelled buffer (.character value) with
    ⟨-, hkept⟩ | ⟨mapping, start, last, progress, hwins, happly⟩
  · exact .inl (by rw [hkept]; rfl)
  · have hcontinues : start = [] ∨ Continues table start := by
      by_cases hne : start = []
      · exact .inl hne
      · exact .inr (hwins.continues hne)
    have hkey := hwins.key
    have hstands := hwins.stands
    have hends := hwins.ends
    cases h.rules mapping hwins.mem with
    | @writes _ _ kana rest final hstart hlast hfinal hrest =>
      obtain ⟨rfl, rfl⟩ := key_inj hkey
      obtain ⟨rfl, rfl⟩ := matchElement_expected hstands
      refine .inr ⟨start, kana, final, rest, hcontinues, hends, hfinal, hrest, hlast, ?_⟩
      rw [happly, written_map]
    | waiting =>
      obtain ⟨rfl, rfl⟩ := key_inj hkey
      obtain ⟨rfl, rfl⟩ := matchElement_expected hstands
      refine .inl ?_
      rw [happly]
      conv_rhs => rw [← take_suffix hends]
      simp [Mapping.written]
    | ending hstart kana =>
      obtain ⟨rfl, rfl⟩ := key_inj hkey
      cases hstands
    | wildcard =>
      obtain ⟨rfl, rfl⟩ := key_inj hkey
      obtain rfl := Option.some.inj hstands
      refine .inr ⟨[['n']], [], 'ん', [value], hcontinues, hends, by decide, .inr rfl, ?_, ?_⟩
      · intro hwaits
        -- behind `n` only `y` waits, and the rule of `ny` wins over the wildcard
        have hstays := List.isChain_pair.mp hwaits.2
        have hy : value = ['y'] := by
          simp only [stays, Bool.and_eq_true, Bool.or_eq_true, decide_eq_true_eq] at hstays
          simpa using hstays.1.1.2
        have hbest := hwins.best _ h.waiting [['n']] _ {} rfl hends (by rw [hy]; rfl)
        simp at hbest
      · rw [happly]
        rfl

/-- What waits is shown as it was typed. -/
theorem InputTable.Romaji.apply_waits (h : table.Romaji) {text : List Grapheme} {value : Grapheme}
    (hwaits : Waits (text ++ [value])) :
    (table.apply text (.character value)).1 = text ++ [value] := by
  rcases h.apply_cases text value with hkept | ⟨start, _, _, _, -, ⟨front, rfl⟩, -, -, hnot, -⟩
  · exact hkept
  · refine absurd (hwaits.part ⟨front, [], ?_⟩) hnot
    simp

def InputTable.typed (table : InputTable) (text : List Grapheme) : List Grapheme :=
  text.foldl (fun buffer value => (table.apply buffer (.character value)).1) []

theorem InputTable.typed_concat (table : InputTable) (text : List Grapheme) (value : Grapheme) :
    table.typed (text ++ [value]) = (table.apply (table.typed text) (.character value)).1 := by
  rw [typed, List.foldl_append]
  rfl

theorem InputTable.Romaji.typed_waits (h : table.Romaji) {text : List Grapheme}
    (hwaits : Waits text) :
    table.typed text = text := by
  induction text using List.reverseRecOn with
  | nil => rfl
  | append_singleton text value ih =>
    rw [InputTable.typed_concat, ih (hwaits.part ⟨[], [value], by simp⟩), h.apply_waits hwaits]

/-! ### The pieces of a buffer -/

def InputTable.Written (table : InputTable) (piece : Grapheme) : Prop :=
  ∃ mapping ∈ table.mappings, .character piece ∈ mapping.value

theorem resolved_of_stands {last : KeyElement} {added resolved : InputPiece}
    {progress : MatchProgress}
    (h : matchElement last added {} = some progress)
    (hresolved : progress.resolvedWildcard = some resolved) :
    resolved = added := by
  cases last with
  | any =>
    obtain rfl := Option.some.inj h
    exact (Option.some.inj hresolved).symm
  | piece expected =>
    obtain ⟨count, -, rfl⟩ := Option.map_eq_some_iff.mp h
    cases hresolved

theorem InputTable.Romaji.mem_apply (h : table.Romaji) {buffer : List Grapheme}
    {value piece : Grapheme}
    (hin : piece ∈ (table.apply buffer (.character value)).1) :
    piece ∈ buffer ∨ piece = value ∨ table.Written piece := by
  rcases table.apply_spelled h.spelled buffer (.character value) with
    ⟨-, hkept⟩ | ⟨mapping, start, last, progress, hwins, happly⟩
  · rw [hkept] at hin
    exact (List.mem_append.mp hin).imp id fun hlast => .inl (List.mem_singleton.mp hlast)
  · rw [happly] at hin
    refine (List.mem_append.mp hin).imp List.mem_of_mem_take fun hwritten => ?_
    obtain ⟨element, hmem, helement⟩ := List.mem_filterMap.mp hwritten
    cases element with
    | character written =>
      cases helement
      exact .inr ⟨mapping, hwins.mem, hmem⟩
    | any =>
      obtain ⟨resolved, hresolved, hdisplayed⟩ := Option.bind_eq_some_iff.mp helement
      rw [resolved_of_stands hwins.stands hresolved] at hdisplayed
      exact .inl (Option.some.inj hdisplayed).symm

end

/-! ### The default table -/

def defaultRomanToKana : List (Text × Text) :=
  [("a", "あ"), ("xa", "ぁ"), ("la", "ぁ"), ("i", "い"), ("xi", "ぃ"), ("li", "ぃ"), ("u", "う"),
   ("wu", "う"), ("vu", "ゔ"), ("xu", "ぅ"), ("lu", "ぅ"), ("e", "え"), ("xe", "ぇ"),
   ("le", "ぇ"), ("o", "お"), ("xo", "ぉ"), ("lo", "ぉ"), ("ka", "か"), ("ca", "か"),
   ("ga", "が"), ("xka", "ゕ"), ("lka", "ゕ"), ("ki", "き"), ("gi", "ぎ"), ("ku", "く"),
   ("cu", "く"), ("gu", "ぐ"), ("ke", "け"), ("ge", "げ"), ("xke", "ゖ"), ("lke", "ゖ"),
   ("ko", "こ"), ("co", "こ"), ("go", "ご"), ("sa", "さ"), ("za", "ざ"), ("si", "し"),
   ("ci", "し"), ("shi", "し"), ("zi", "じ"), ("ji", "じ"), ("su", "す"), ("zu", "ず"),
   ("se", "せ"), ("ce", "せ"), ("ze", "ぜ"), ("so", "そ"), ("zo", "ぞ"), ("ta", "た"),
   ("da", "だ"), ("ti", "ち"), ("chi", "ち"), ("di", "ぢ"), ("tu", "つ"), ("tsu", "つ"),
   ("xtu", "っ"), ("ltu", "っ"), ("xtsu", "っ"), ("ltsu", "っ"), ("du", "づ"), ("te", "て"),
   ("de", "で"), ("to", "と"), ("do", "ど"), ("na", "な"), ("ni", "に"), ("nu", "ぬ"),
   ("ne", "ね"), ("no", "の"), ("ha", "は"), ("ba", "ば"), ("pa", "ぱ"), ("hi", "ひ"),
   ("bi", "び"), ("pi", "ぴ"), ("hu", "ふ"), ("fu", "ふ"), ("bu", "ぶ"), ("pu", "ぷ"),
   ("he", "へ"), ("be", "べ"), ("pe", "ぺ"), ("ho", "ほ"), ("bo", "ぼ"), ("po", "ぽ"),
   ("ma", "ま"), ("mi", "み"), ("mu", "む"), ("me", "め"), ("mo", "も"), ("ya", "や"),
   ("xya", "ゃ"), ("lya", "ゃ"), ("yu", "ゆ"), ("xyu", "ゅ"), ("lyu", "ゅ"), ("yo", "よ"),
   ("xyo", "ょ"), ("lyo", "ょ"), ("ra", "ら"), ("ri", "り"), ("ru", "る"), ("re", "れ"),
   ("ro", "ろ"), ("wa", "わ"), ("xwa", "ゎ"), ("lwa", "ゎ"), ("wyi", "ゐ"), ("wye", "ゑ"),
   ("wo", "を"), ("nn", "ん"), ("ye", "いぇ"), ("va", "ゔぁ"), ("vi", "ゔぃ"), ("ve", "ゔぇ"),
   ("vo", "ゔぉ"), ("kya", "きゃ"), ("kyu", "きゅ"), ("kye", "きぇ"), ("kyo", "きょ"), ("gya", "ぎゃ"),
   ("gyu", "ぎゅ"), ("gye", "ぎぇ"), ("gyo", "ぎょ"), ("qa", "くぁ"), ("kwa", "くぁ"), ("qwa", "くぁ"),
   ("qi", "くぃ"), ("kwi", "くぃ"), ("qwi", "くぃ"), ("qu", "くぅ"), ("kwu", "くぅ"), ("qwu", "くぅ"),
   ("qe", "くぇ"), ("kwe", "くぇ"), ("qwe", "くぇ"), ("qo", "くぉ"), ("kwo", "くぉ"), ("qwo", "くぉ"),
   ("gwa", "ぐぁ"), ("gwi", "ぐぃ"), ("gwu", "ぐぅ"), ("gwe", "ぐぇ"), ("gwo", "ぐぉ"),
   ("sha", "しゃ"), ("sya", "しゃ"), ("shu", "しゅ"), ("syu", "しゅ"), ("she", "しぇ"),
   ("sye", "しぇ"), ("sho", "しょ"), ("syo", "しょ"), ("ja", "じゃ"), ("zya", "じゃ"), ("jya", "じゃ"),
   ("jyi", "じぃ"), ("ju", "じゅ"), ("zyu", "じゅ"), ("jyu", "じゅ"), ("je", "じぇ"), ("zye", "じぇ"),
   ("jye", "じぇ"), ("jo", "じょ"), ("zyo", "じょ"), ("jyo", "じょ"), ("swa", "すぁ"), ("swi", "すぃ"),
   ("swu", "すぅ"), ("swe", "すぇ"), ("swo", "すぉ"), ("cha", "ちゃ"), ("cya", "ちゃ"),
   ("tya", "ちゃ"), ("tyi", "ちぃ"), ("cyi", "ちぃ"), ("chu", "ちゅ"), ("cyu", "ちゅ"),
   ("tyu", "ちゅ"), ("che", "ちぇ"), ("cye", "ちぇ"), ("tye", "ちぇ"), ("cho", "ちょ"),
   ("cyo", "ちょ"), ("tyo", "ちょ"), ("tsa", "つぁ"), ("tsi", "つぃ"), ("tse", "つぇ"),
   ("tso", "つぉ"), ("tha", "てゃ"), ("thi", "てぃ"), ("thu", "てゅ"), ("the", "てぇ"),
   ("tho", "てょ"), ("twa", "とぁ"), ("twi", "とぃ"), ("twu", "とぅ"), ("twe", "とぇ"),
   ("two", "とぉ"), ("dya", "ぢゃ"), ("dyi", "ぢぃ"), ("dyu", "ぢゅ"), ("dye", "ぢぇ"),
   ("dyo", "ぢょ"), ("dha", "でゃ"), ("dhi", "でぃ"), ("dhu", "でゅ"), ("dhe", "でぇ"),
   ("dho", "でょ"), ("dwa", "どぁ"), ("dwi", "どぃ"), ("dwu", "どぅ"), ("dwe", "どぇ"),
   ("dwo", "どぉ"), ("nya", "にゃ"), ("nyi", "にぃ"), ("nyu", "にゅ"), ("nye", "にぇ"),
   ("nyo", "にょ"), ("hya", "ひゃ"), ("hyi", "ひぃ"), ("hyu", "ひゅ"), ("hye", "ひぇ"),
   ("hyo", "ひょ"), ("bya", "びゃ"), ("byi", "びぃ"), ("byu", "びゅ"), ("bye", "びぇ"),
   ("byo", "びょ"), ("pya", "ぴゃ"), ("pyi", "ぴぃ"), ("pyu", "ぴゅ"), ("pye", "ぴぇ"),
   ("pyo", "ぴょ"), ("fa", "ふぁ"), ("hwa", "ふぁ"), ("fwa", "ふぁ"), ("fi", "ふぃ"), ("hwi", "ふぃ"),
   ("fwi", "ふぃ"), ("fwu", "ふぅ"), ("fe", "ふぇ"), ("hwe", "ふぇ"), ("fwe", "ふぇ"), ("fo", "ふぉ"),
   ("hwo", "ふぉ"), ("fwo", "ふぉ"), ("fya", "ふゃ"), ("fyu", "ふゅ"), ("fyo", "ふょ"),
   ("mya", "みゃ"), ("myi", "みぃ"), ("myu", "みゅ"), ("mye", "みぇ"), ("myo", "みょ"),
   ("rya", "りゃ"), ("ryi", "りぃ"), ("ryu", "りゅ"), ("rye", "りぇ"), ("ryo", "りょ"), ("wi", "うぃ"),
   ("we", "うぇ"), ("wha", "うぁ"), ("whi", "うぃ"), ("whu", "う"), ("whe", "うぇ"), ("who", "うぉ"),
   ("bb", "っb"), ("cc", "っc"), ("dd", "っd"), ("ff", "っf"), ("gg", "っg"), ("hh", "っh"),
   ("jj", "っj"), ("kk", "っk"), ("ll", "っl"), ("mm", "っm"), ("pp", "っp"), ("qq", "っq"),
   ("rr", "っr"), ("ss", "っs"), ("tt", "っt"), ("vv", "っv"), ("ww", "っw"), ("xx", "っx"),
   ("yy", "っy"), ("zz", "っz"), ("ny", "ny"), ("xn", "ん"), ("zh", "←"), ("zj", "↓"),
   ("zk", "↑"), ("zl", "→")].map fun (key, value) => (key.toList, value.toList)

/-- The value ends with something that is no consonant, with at most the last character of the key
behind it. -/
def closes (last : Option Char) (value : Text) : Bool :=
  match value.reverse with
  | [] => false
  | [final] => !isConsonant [final]
  | final :: before :: _ => !isConsonant [final] || last = some final && !isConsonant [before]

theorem closes_spec {last : Option Char} {value : Text} (h : closes last value) :
    ∃ kana final rest, value = kana ++ final :: rest ∧ isConsonant [final] = false ∧
      (rest = [] ∨ ∃ c, last = some c ∧ rest = [c]) := by
  rw [closes] at h
  split at h
  · cases h
  · next final hvalue =>
    refine ⟨[], final, [], ?_, by simpa using h, .inl rfl⟩
    rw [← List.reverse_reverse value, hvalue]
    rfl
  · next final before kana hvalue =>
    have hsplit : value = kana.reverse ++ [before, final] := by
      rw [← List.reverse_reverse value, hvalue]
      simp
    cases hfinal : isConsonant [final] with
    | false => exact ⟨kana.reverse ++ [before], final, [], by rw [hsplit]; simp, hfinal, .inl rfl⟩
    | true =>
      simp only [hfinal, Bool.not_true, Bool.false_or, Bool.and_eq_true, decide_eq_true_eq,
        Bool.not_eq_true'] at h
      exact ⟨kana.reverse, before, [final], hsplit, h.2, .inr ⟨final, h.1, rfl⟩⟩

/-- An entry is `ny`, or has consonants before its last character and does not wait with it. -/
def romajiEntry (entry : Text × Text) : Bool :=
  entry = (['n', 'y'], ['n', 'y']) ||
    decide (Waits (letters entry.1).dropLast) && !decide (Waits (letters entry.1)) &&
      closes entry.1.getLast? entry.2

theorem romaji_of_entry {entry : Text × Text} (h : romajiEntry entry) :
    Mapping.Romaji ⟨characters (letters entry.1), (letters entry.2).map .character⟩ := by
  rcases (Bool.or_eq_true _ _).mp h with hny | hentry
  · rw [of_decide_eq_true hny]
    exact .waiting
  · simp only [Bool.and_eq_true, decide_eq_true_eq, Bool.not_eq_true', decide_eq_false_iff_not]
      at hentry
    obtain ⟨⟨hstart, hwhole⟩, hvalue⟩ := hentry
    -- the key has a last character, as the empty one waits
    have hne : entry.1 ≠ [] := by
      intro hempty
      exact hwhole (by rw [hempty]; exact ⟨by simp [letters], .nil⟩)
    obtain ⟨front, last, hkey⟩ := (List.eq_nil_or_concat entry.1).resolve_left hne
    rw [List.concat_eq_append] at hkey
    rw [hkey, letters_append] at hwhole hstart ⊢
    have hdrop : (letters front ++ letters [last]).dropLast = letters front := List.dropLast_concat
    rw [hdrop] at hstart
    obtain ⟨kana, final, rest, hsplit, hfinal, hrest⟩ := closes_spec hvalue
    rw [hsplit, characters_append, letters_append]
    refine .writes hstart hwhole hfinal ?_
    rcases hrest with rfl | ⟨c, hlast, rfl⟩
    · exact .inl rfl
    · rw [hkey, List.getLast?_concat] at hlast
      cases hlast
      exact .inr rfl

theorem romajiEntry_default : defaultRomanToKana.all romajiEntry = true := by decide +kernel

theorem ny_mem_default : (['n', 'y'], ['n', 'y']) ∈ defaultRomanToKana := by decide +kernel

section
variable {unicode : UnicodeTable} {kana : List (Text × Text)}

/-- The characters of the entries are graphemes of their own. -/
def SplitsEntries (unicode : UnicodeTable) (kana : List (Text × Text)) : Prop :=
  ∀ entry ∈ kana, graphemes unicode entry.1 = letters entry.1 ∧
    graphemes unicode entry.2 = letters entry.2

def spelledEntry (entry : Text × Text) : Mapping :=
  ⟨characters (letters entry.1), (letters entry.2).map .character⟩

/-- The rules of `defaultRomanToKana` that are no entries. -/
def romajiEnds : List Mapping :=
  [⟨characters [] ++ [.piece .compositionSeparator], []⟩,
    ⟨characters [['n']] ++ [.piece .compositionSeparator], [.character ['ん']]⟩,
    ⟨characters [['n']] ++ [.any], [.character ['ん'], .any]⟩]

theorem defaultRomanToKana_eq (hsplits : SplitsEntries unicode kana) :
    InputTable.defaultRomanToKana unicode kana = .new (kana.map spelledEntry ++ romajiEnds) := by
  refine congrArg (fun entries => InputTable.new (entries ++ romajiEnds)) ?_
  apply List.map_congr_left
  rintro ⟨key, value⟩ hin
  obtain ⟨hkey, hvalue⟩ := hsplits _ hin
  dsimp only at hkey hvalue ⊢
  rw [hkey, hvalue]
  rfl

theorem mem_rules {mapping : Mapping} (h : mapping ∈ kana.map spelledEntry ++ romajiEnds) :
    (∃ entry ∈ kana, spelledEntry entry = mapping) ∨
      mapping = ⟨characters [] ++ [.piece .compositionSeparator], []⟩ ∨
      mapping = ⟨characters [['n']] ++ [.piece .compositionSeparator], [.character ['ん']]⟩ ∨
      mapping = ⟨characters [['n']] ++ [.any], [.character ['ん'], .any]⟩ := by
  rcases List.mem_append.mp h with hentry | hend
  · exact .inl (List.mem_map.mp hentry)
  · simpa [romajiEnds] using Or.inr hend

/-- An entry that is given one value only is a rule. -/
theorem entry_mem_default (hsplits : SplitsEntries unicode kana) {entry : Text × Text}
    (hin : entry ∈ kana)
    (hne : entry.1 ≠ []) (honly : ∀ other ∈ kana, other.1 = entry.1 → other = entry) :
    spelledEntry entry ∈ (InputTable.defaultRomanToKana unicode kana).mappings := by
  rw [defaultRomanToKana_eq hsplits]
  refine mem_new_of_mem (List.mem_append_left _ (List.mem_map_of_mem hin)) ?_
  intro other hother hkey
  -- the ends have no character as their last element
  obtain ⟨front, last, hsplit⟩ := (List.eq_nil_or_concat entry.1).resolve_left hne
  have hlast : other.key.getLast? = some (.piece (.character [last])) := by
    rw [hkey, spelledEntry, hsplit, List.concat_eq_append, letters_append, characters_append]
    exact List.getLast?_concat
  rcases mem_rules hother with ⟨found, hfound, rfl⟩ | rfl | rfl | rfl
  · rw [honly found hfound (letters_injective (characters_injective hkey))]
  · simp at hlast
  · simp at hlast
  · simp at hlast

theorem romaji_default (hsplits : SplitsEntries unicode kana) (hentries : kana.all romajiEntry)
    (hny : (['n', 'y'], ['n', 'y']) ∈ kana) :
    (InputTable.defaultRomanToKana unicode kana).Romaji := by
  have hrules : ∀ entry ∈ kana, romajiEntry entry := List.all_eq_true.mp hentries
  constructor
  · intro mapping hmem
    rw [defaultRomanToKana_eq hsplits] at hmem
    rcases mem_rules (mem_new hmem) with ⟨entry, hin, rfl⟩ | rfl | rfl | rfl
    · exact romaji_of_entry (hrules entry hin)
    · exact .ending ⟨by simp, .nil⟩ _
    · exact .ending waits_n _
    · exact .wildcard
  · refine entry_mem_default hsplits hny (by simp) fun other hother hkey => ?_
    -- another value of `ny` would have to close what waits
    rcases (Bool.or_eq_true _ _).mp (hrules other hother) with hsame | hcloses
    · exact of_decide_eq_true hsame
    · have hwaits : Waits (letters ['n', 'y']) := by decide
      simp [hkey, hwaits] at hcloses

theorem typed_entry (hsplits : SplitsEntries unicode kana) (hentries : kana.all romajiEntry)
    (hny : (['n', 'y'], ['n', 'y']) ∈ kana) (start : Text) (last : Char) (value : Text)
    (hin : (start ++ [last], value) ∈ kana)
    (honly : ∀ other ∈ kana, other.1 = start ++ [last] → other.2 = value)
    (hwaits : Waits (letters start)) :
    (InputTable.defaultRomanToKana unicode kana).typed (letters (start ++ [last])) =
    letters value := by
  have hromaji := romaji_default hsplits hentries hny
  have hmem := entry_mem_default hsplits hin (by simp) fun other hother hkey =>
    Prod.ext hkey (honly other hother hkey)
  have hkey : (spelledEntry (start ++ [last], value)).key =
      characters (letters start) ++ [.piece (.character [last])] := by
    rw [spelledEntry, letters_append, characters_append]
    rfl
  rw [letters_append]
  change InputTable.typed _ (letters start ++ [[last]]) = _
  rw [InputTable.typed_concat, hromaji.typed_waits hwaits,
    InputTable.apply_whole hromaji.spelled hmem hkey]
  exact written_map _ _ _

theorem typed_unknown (hsplits : SplitsEntries unicode kana) (hentries : kana.all romajiEntry)
    (hny : (['n', 'y'], ['n', 'y']) ∈ kana) {value : Grapheme}
    (hunknown : ∀ entry ∈ kana, letters entry.1 ≠ [value]) :
    (InputTable.defaultRomanToKana unicode kana).typed [value] = [value] := by
  have hromaji := romaji_default hsplits hentries hny
  change (InputTable.apply _ [] (.character value)).1 = [value]
  rcases InputTable.apply_spelled hromaji.spelled [] (.character value) with ⟨-, hkept⟩ |
    ⟨mapping, start, last, progress, hwins, -⟩
  · rw [hkept]
    rfl
  · have hkey := hwins.key
    have hmem := hwins.mem
    have hstands := hwins.stands
    rw [List.suffix_nil.mp hwins.ends] at hkey
    rw [defaultRomanToKana_eq hsplits] at hmem
    rcases mem_rules (mem_new hmem) with ⟨entry, hin, rfl⟩ | rfl | rfl | rfl
    · obtain ⟨expected, hexpected, rfl⟩ : ∃ expected, letters entry.1 = [expected] ∧
          last = .piece (.character expected) := by
        obtain ⟨expected, hone, hlast⟩ := List.map_eq_singleton_iff.mp hkey
        exact ⟨expected, hone, hlast.symm⟩
      obtain ⟨rfl, -⟩ := matchElement_expected hstands
      exact absurd hexpected (hunknown entry hin)
    · obtain rfl : _ = last := (List.cons.inj hkey).1
      cases hstands
    · cases (List.cons.inj hkey).2
    · cases (List.cons.inj hkey).2

theorem written_default {piece : Grapheme} (hsplits : SplitsEntries unicode kana)
    (h : (InputTable.defaultRomanToKana unicode kana).Written piece) :
    piece = ['ん'] ∨ ∃ entry ∈ kana, piece ∈ letters entry.2 := by
  obtain ⟨mapping, hmem, hvalue⟩ := h
  rw [defaultRomanToKana_eq hsplits] at hmem
  rcases mem_rules (mem_new hmem) with ⟨entry, hin, rfl⟩ | rfl | rfl | rfl
  · obtain ⟨written, hwritten, heq⟩ := List.mem_map.mp hvalue
    cases heq
    exact .inr ⟨entry, hin, hwritten⟩
  · cases hvalue
  · exact .inl (by simpa using hvalue)
  · exact .inl (by simpa using hvalue)

theorem asked_default {mapping : Mapping} {piece : Grapheme} (hsplits : SplitsEntries unicode kana)
    (hmem : mapping ∈ (InputTable.defaultRomanToKana unicode kana).mappings)
    (hasked : .piece (.character piece) ∈ mapping.key) :
    piece = ['n'] ∨ ∃ entry ∈ kana, piece ∈ letters entry.1 := by
  rw [defaultRomanToKana_eq hsplits] at hmem
  rcases mem_rules (mem_new hmem) with ⟨entry, hin, rfl⟩ | rfl | rfl | rfl
  · obtain ⟨value, hvalue, hsame⟩ := List.mem_map.mp hasked
    cases hsame
    exact .inr ⟨entry, hin, hvalue⟩
  · simp [characters] at hasked
  · exact .inl (by simpa [characters] using hasked)
  · exact .inl (by simpa [characters] using hasked)

end

end BeanKey.Input
