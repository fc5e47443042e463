import BeanKey.Library.Loop
import BeanKey.Session.Request

/-! What may follow a candidate that was committed: words behind it, emoji, and longer words in
place of its last ones. -/
namespace BeanKey.Session
open Input BeanKey.Lattice

inductive PostPredictionKind where
  | additional (entries : List DictionaryEntry)
  | replacement (targetEntries replacementEntries : List DictionaryEntry)
  deriving DecidableEq

structure PostCompositionPrediction where
  text : Text
  value : ℚ
  kind : PostPredictionKind
  isTerminal : Bool
  deriving DecidableEq

namespace PostCompositionPrediction

def new (text : Text) (value : ℚ) (kind : PostPredictionKind) : PostCompositionPrediction :=
  { text, value, kind, isTerminal := text ∈ [['。'], ['.'], ['．']] }

def joinedEntries (prediction : PostCompositionPrediction) (entries : List DictionaryEntry) :
    List DictionaryEntry :=
  match prediction.kind with
  | .additional additional => entries ++ additional
  | .replacement targetEntries replacementEntries =>
    entries.take (entries.length - targetEntries.length) ++ replacementEntries

def lastMeaningIdOf (entries : List DictionaryEntry) : Nat :=
  match entries.reverse.find? includesMeaning with
  | some entry => entry.meaningId
  | none => bosMeaningId

def join (unicode : UnicodeTable) (prediction : PostCompositionPrediction)
    (candidate : Lattice.Candidate) : Lattice.Candidate :=
  let entries := prediction.joinedEntries candidate.entries
  .single unicode (entries.flatMap DictionaryEntry.word) prediction.value
    (.surface (rubyCountOf unicode entries)) (lastMeaningIdOf entries) entries

end PostCompositionPrediction

/-- The parts of the dictionary that predictions are made from; a lookup may fail. -/
structure PredictionDictionary (Error : Type) where
  zeroHintEntries : Nat → Except Error (List DictionaryEntry)
  entriesAfterPrefix : Text → Nat → Nat → Except Error (List DictionaryEntry)
  connectionCost : Nat → Nat → Except Error ℚ
  meaningCost : Nat → Nat → Option ℚ

def predictionUnusableRightIds : List Nat :=
  [13, 14, 15, 16, 17, 18, 25, 26, 27, 28, 33, 34, 40, 41, 42, 46, 47, 50, 56, 57, 58, 59, 60, 61,
    62, 63, 64, 74, 75, 76, 77, 78, 79, 86, 87, 88, 93, 94, 95, 99, 100, 103, 107, 108, 109, 110,
    111, 112, 119, 120, 121, 122, 127, 128, 134, 135, 136, 140, 141, 144, 369, 372, 373, 377, 378,
    379, 380, 381, 382, 389, 390, 391, 392, 397, 398, 401, 402, 404, 405, 406, 408, 410, 411, 412,
    413, 416, 417, 418, 419, 420, 421, 426, 427, 431, 433, 434, 437, 438, 441, 442, 443, 447, 448,
    450, 452, 455, 457, 462, 463, 464, 470, 471, 472, 476, 477, 480, 483, 489, 490, 493, 494, 495,
    496, 504, 527, 528, 533, 534, 537, 540, 542, 548, 551, 553, 561, 562, 564, 565, 566, 567, 569,
    571, 572, 574, 575, 576, 577, 579, 581, 582, 585, 587, 589, 590, 591, 594, 595, 596, 597, 598,
    600, 601, 603, 604, 606, 609, 611, 614, 617, 618, 620, 621, 622, 624, 626, 627, 629, 630, 631,
    634, 636, 638, 641, 642, 644, 647, 648, 650, 653, 654, 656, 659, 660, 662, 665, 666, 668, 671,
    672, 673, 675, 676, 677, 678, 681, 682, 683, 684, 687, 688, 691, 692, 693, 694, 697, 698, 699,
    700, 703, 704, 707, 708, 709, 710, 713, 714, 715, 716, 721, 722, 724, 725, 727, 729, 730, 732,
    733, 736, 737, 739, 740, 742, 744, 745, 747, 748, 750, 752, 753, 755, 756, 758, 760, 761, 763,
    764, 766, 768, 769, 770, 771, 774, 775, 776, 777, 778, 779, 780, 781, 782, 783, 786, 787, 790,
    791, 793, 794, 795, 798, 800, 801, 804, 805, 806, 807, 810, 811, 814, 815, 816, 820, 821, 822,
    823, 824, 825, 829, 830, 831, 835, 837, 840, 842, 845, 847, 850, 852, 855, 859, 860, 862, 865,
    866, 868, 869, 871, 872, 873, 875, 877, 878, 880, 881, 884, 885, 887, 888, 889, 890, 891, 893,
    895, 896, 898, 899, 900, 901, 903, 905, 906, 908, 909, 910, 911, 913, 915, 916, 917, 918, 921,
    922, 923, 924, 925, 928, 929, 931, 932, 934, 935, 936, 939, 941, 943, 944, 945, 946, 947, 948,
    949, 950, 951, 952, 958, 959, 960, 961, 962, 963, 964, 965, 966, 967, 973, 974, 975, 976, 977,
    983, 984, 985, 986, 987, 988, 989, 990, 995, 996, 997, 998, 999, 1000, 1001, 1002, 1007, 1008,
    1009, 1010, 1015, 1016, 1017, 1018, 1021, 1022, 1023, 1024, 1029, 1030, 1031, 1032, 1033, 1034,
    1035, 1036, 1041, 1042, 1043, 1044, 1045, 1046, 1047, 1048, 1057, 1058, 1060, 1061, 1063, 1065,
    1066, 1067, 1068, 1069, 1070, 1071, 1072, 1073, 1074, 1075, 1076, 1077, 1078, 1079, 1080, 1081,
    1082, 1083, 1084, 1085, 1086, 1087, 1088, 1089, 1090, 1104, 1105, 1106, 1107, 1108, 1109, 1110,
    1111, 1112, 1113, 1114, 1115, 1116, 1117, 1118, 1119, 1120, 1121, 1122, 1123, 1124, 1125, 1126,
    1127, 1128, 1129, 1130, 1131, 1132, 1133, 1134, 1135, 1136, 1137, 1138, 1139, 1140, 1141, 1142,
    1143, 1144, 1145, 1146, 1147, 1148, 1149, 1150, 1151, 1152, 1153, 1154, 1155, 1156, 1157, 1158,
    1159, 1160, 1161, 1162, 1163, 1164, 1165, 1166, 1167, 1168, 1182, 1183, 1184, 1185, 1186, 1187,
    1188, 1189, 1190, 1191, 1192, 1193, 1194, 1208, 1209, 1210, 1211, 1212, 1213, 1214, 1215, 1220,
    1221, 1222, 1223, 1224, 1225, 1226, 1227, 1228, 1229, 1230, 1231, 1240, 1241, 1242, 1243, 1248,
    1249, 1250, 1251, 1256, 1257, 1258, 1259, 1260, 1261, 1262, 1263, 1268, 1269, 1270, 1271, 1276,
    1278]

def predictionUsable (rightId : Nat) : Bool := rightId ∉ predictionUnusableRightIds

/-- A better prediction takes the place of one with its text. -/
def insertPrediction (output : List PostCompositionPrediction)
    (prediction : PostCompositionPrediction) : List PostCompositionPrediction :=
  match output.findIdx? fun existing => existing.text = prediction.text with
  | none => output ++ [prediction]
  | some index =>
    output.modify index fun existing =>
      if existing.value < prediction.value then prediction else existing

def sortPredictions (predictions : List PostCompositionPrediction) :
    List PostCompositionPrediction :=
  predictions.mergeSort fun left right => right.value ≤ left.value

def uniquePredictions (values : List PostCompositionPrediction) : List PostCompositionPrediction :=
  sortPredictions ((values.filter fun value => value.text ≠ []).foldl insertPrediction [])

section
variable (unicode : UnicodeTable) {Error : Type} (dictionary : PredictionDictionary Error)

/-- `search` is the replacer's, without the emoji that are no base. -/
def emojiCandidates (search : Option (Text → List Text)) (candidate : Lattice.Candidate) :
    List PostCompositionPrediction :=
  match search with
  | none => []
  | some search =>
    ((candidate.entries.filter includesMeaning).flatMap fun entry => search entry.word).map
      fun emoji => .new emoji (-3) (.additional
        [{ word := emoji
           ruby := "エモジ".toList
           leftId := 5
           rightId := 5
           meaningId := 501
           baseValue := -3 }])

def meaningCostOf (meaningId : Nat) (entry : DictionaryEntry) : ℚ :=
  if includesMeaning entry then (dictionary.meaningCost meaningId entry.meaningId).getD 0 else 0

def zeroHints (candidate : Lattice.Candidate) (nBest : Nat) :
    Except Error (List PostCompositionPrediction) := do
  match candidate.entries.getLast? with
  | none => return []
  | some last =>
    let entries ← dictionary.zeroHintEntries last.rightId
    let output ← entries.mapM fun entry => do
      let connection ← dictionary.connectionCost last.rightId entry.leftId
      return .new entry.word
        (candidate.value + connection + meaningCostOf dictionary candidate.lastMeaningId entry +
          entry.value) (.additional [entry])
    return (sortPredictions output).take nBest

structure ReplacementState where
  prefixEntries : List DictionaryEntry
  prefixValue : ℚ
  prefixMeaning : Nat
  totalWord : Text
  totalRuby : Text
  targetEntries : List DictionaryEntry

def priorRight (entries : List DictionaryEntry) : Nat :=
  match entries.getLast? with
  | some entry => entry.rightId
  | none => bosClassId

def ReplacementState.step (state : ReplacementState) (entry : DictionaryEntry) :
    Except Error ReplacementState := do
  let prefixEntries := state.prefixEntries.dropLast
  let connection ← dictionary.connectionCost (priorRight prefixEntries) entry.leftId
  let prefixMeaning :=
    if includesMeaning entry then PostCompositionPrediction.lastMeaningIdOf prefixEntries
    else state.prefixMeaning
  return {
    prefixEntries
    prefixValue := state.prefixValue - entry.value - connection -
      meaningCostOf dictionary prefixMeaning entry
    prefixMeaning
    totalWord := entry.word ++ state.totalWord
    totalRuby := entry.ruby ++ state.totalRuby
    targetEntries := entry :: state.targetEntries }

def maximumDepth (rubyCount : Nat) : Nat :=
  if rubyCount = 1 then 3 else if rubyCount = 2 then 5 else 2 ^ 64 - 1

def replacementsOf (state : ReplacementState) : Except Error (List PostCompositionPrediction) := do
  let entries ← dictionary.entriesAfterPrefix state.totalRuby
    (maximumDepth (graphemes unicode state.totalRuby).length) 700
  (entries.filter fun entry => predictionUsable entry.rightId &&
      state.totalWord.isPrefixOf entry.word).mapM fun replacement => do
    let connection ← dictionary.connectionCost (priorRight state.prefixEntries) replacement.leftId
    return .new (replacement.word.drop state.totalWord.length)
      (state.prefixValue + connection + meaningCostOf dictionary state.prefixMeaning replacement +
        replacement.value) (.replacement state.targetEntries [replacement])

def replacementsFrom : Nat → ReplacementState → List PostCompositionPrediction →
    Except Error (List PostCompositionPrediction)
  | 0, _, output => .ok output
  | remaining + 1, state, output =>
    match state.prefixEntries.getLast? with
    | none => .ok output
    | some entry => do
      let state ← state.step dictionary entry
      let found ← replacementsOf unicode dictionary state
      replacementsFrom remaining state (output ++ found)

def replacements (candidate : Lattice.Candidate) (nBest : Nat) :
    Except Error (List PostCompositionPrediction) := do
  let output ← replacementsFrom unicode dictionary (min candidate.entries.length 3)
    { prefixEntries := candidate.entries
      prefixValue := candidate.value
      prefixMeaning := candidate.lastMeaningId
      totalWord := []
      totalRuby := []
      targetEntries := [] } []
  return (sortPredictions output).take nBest

def isParticle (prediction : PostCompositionPrediction) : Bool :=
  match prediction.kind with
  | .additional entries => entries.getLast?.any fun entry => 147 ≤ entry.rightId &&
      entry.rightId ≤ 368
  | .replacement _ _ => false

def limitParticles : Nat → List PostCompositionPrediction → List PostCompositionPrediction
  | _, [] => []
  | particleCount, prediction :: predictions =>
    if isParticle prediction then
      if particleCount = 3 then limitParticles particleCount predictions
      else prediction :: limitParticles (particleCount + 1) predictions
    else prediction :: limitParticles particleCount predictions

def firstUnseen (seen : List Text) (predictions : List PostCompositionPrediction) (count : Nat) :
    List PostCompositionPrediction :=
  (predictions.filter fun prediction => prediction.text ∉ seen).take count

def predict (search : Option (Text → List Text)) (candidate : Lattice.Candidate) :
    Except Error (List PostCompositionPrediction) := do
  let hints ← zeroHints dictionary candidate 15
  let hints := limitParticles 0 (uniquePredictions hints)
  let replaced ← replacements unicode dictionary candidate 15
  let output := ((uniquePredictions (emojiCandidates search candidate)).reverse.take 3).reverse
  let predictionCount := max ((10 - output.length) / 2) (10 - (output.length + hints.length))
  let seen := output.map PostCompositionPrediction.text
  let predictions := firstUnseen seen (uniquePredictions replaced) predictionCount
  let seen := seen ++ predictions.map PostCompositionPrediction.text
  let output := output ++ predictions
  return output ++ firstUnseen seen (uniquePredictions hints) (10 - output.length)

end

/-! ### What a prediction shows and what it joins -/

/-- What the prediction shows is what joining it adds to the words of the entries. -/
def Continues (entries : List DictionaryEntry) (prediction : PostCompositionPrediction) : Prop :=
  match prediction.kind with
  | .additional additional => additional.flatMap DictionaryEntry.word = prediction.text
  | .replacement targetEntries replacementEntries =>
    targetEntries ≠ [] ∧ targetEntries.length ≤ 3 ∧ targetEntries <:+ entries ∧
      replacementEntries.flatMap DictionaryEntry.word =
        targetEntries.flatMap DictionaryEntry.word ++ prediction.text

theorem Continues.words {entries : List DictionaryEntry} {prediction : PostCompositionPrediction}
    (h : Continues entries prediction) :
    (prediction.joinedEntries entries).flatMap DictionaryEntry.word =
      entries.flatMap DictionaryEntry.word ++ prediction.text := by
  unfold Continues at h
  unfold PostCompositionPrediction.joinedEntries
  cases hkind : prediction.kind with
  | additional additional =>
    rw [hkind] at h
    simp only at h ⊢
    rw [List.flatMap_append, h]
  | replacement targetEntries replacementEntries =>
    rw [hkind] at h
    obtain ⟨-, -, ⟨before, rfl⟩, hwords⟩ := h
    have htake : (before ++ targetEntries).take
        ((before ++ targetEntries).length - targetEntries.length) = before := by
      rw [List.length_append, Nat.add_sub_cancel, List.take_left' rfl]
    simp only [htake]
    rw [List.flatMap_append, List.flatMap_append, hwords, List.append_assoc]

/-! ### Unique predictions -/

def PostCompositionPrediction.Worse (existing prediction : PostCompositionPrediction) : Prop :=
  existing.value < prediction.value

instance : DecidableRel PostCompositionPrediction.Worse := fun existing prediction =>
  inferInstanceAs (Decidable (existing.value < prediction.value))

theorem insertPrediction_eq : insertPrediction =
    Keyed.insert PostCompositionPrediction.text PostCompositionPrediction.Worse := rfl

theorem sortPredictions_perm (predictions : List PostCompositionPrediction) :
    (sortPredictions predictions).Perm predictions :=
  List.mergeSort_perm _ _

theorem mem_uniquePredictions {values : List PostCompositionPrediction}
    {prediction : PostCompositionPrediction} (h : prediction ∈ uniquePredictions values) :
    prediction ∈ values ∧ prediction.text ≠ [] := by
  rw [uniquePredictions, (sortPredictions_perm _).mem_iff, insertPrediction_eq] at h
  have hkept := (Keyed.mem_foldl_insert _ _ h).resolve_left List.not_mem_nil
  obtain ⟨hin, htext⟩ := List.mem_filter.mp hkept
  exact ⟨hin, of_decide_eq_true htext⟩

theorem uniquePredictions_nodup (values : List PostCompositionPrediction) :
    ((uniquePredictions values).map PostCompositionPrediction.text).Nodup := by
  rw [uniquePredictions, ((sortPredictions_perm _).map _).nodup_iff, insertPrediction_eq]
  exact Keyed.foldl_insert_nodup _ _ List.nodup_nil

theorem mem_limitParticles {predictions : List PostCompositionPrediction} {particleCount : Nat}
    {prediction : PostCompositionPrediction}
    (h : prediction ∈ limitParticles particleCount predictions) :
    prediction ∈ predictions := by
  induction predictions generalizing particleCount with
  | nil => exact h
  | cons first predictions ih =>
    rw [limitParticles] at h
    split at h
    · split at h
      · exact List.mem_cons_of_mem _ (ih h)
      · exact (List.mem_cons.mp h).elim (fun heq => heq ▸ List.mem_cons_self)
          fun hin => List.mem_cons_of_mem _ (ih hin)
    · exact (List.mem_cons.mp h).elim (fun heq => heq ▸ List.mem_cons_self)
        fun hin => List.mem_cons_of_mem _ (ih hin)

theorem mem_firstUnseen {seen : List Text} {predictions : List PostCompositionPrediction}
    {count : Nat} {prediction : PostCompositionPrediction}
    (h : prediction ∈ firstUnseen seen predictions count) :
    prediction ∈ predictions ∧ prediction.text ∉ seen := by
  obtain ⟨hin, hseen⟩ := List.mem_filter.mp (List.mem_of_mem_take h)
  exact ⟨hin, of_decide_eq_true hseen⟩

theorem firstUnseen_nodup {seen : List Text} {predictions : List PostCompositionPrediction}
    {count : Nat} (h : (predictions.map PostCompositionPrediction.text).Nodup) :
    ((firstUnseen seen predictions count).map PostCompositionPrediction.text).Nodup :=
  h.sublist (((List.take_sublist _ _).trans List.filter_sublist).map _)

theorem firstUnseen_length (seen : List Text) (predictions : List PostCompositionPrediction)
    (count : Nat) : (firstUnseen seen predictions count).length ≤ count :=
  List.length_take_le _ _

theorem append_firstUnseen_nodup {listed predictions : List PostCompositionPrediction} {count : Nat}
    (hlisted : (listed.map PostCompositionPrediction.text).Nodup)
    (hpredictions : (predictions.map PostCompositionPrediction.text).Nodup) :
    ((listed ++ firstUnseen (listed.map PostCompositionPrediction.text) predictions count).map
      PostCompositionPrediction.text).Nodup := by
  rw [List.map_append, List.nodup_append]
  refine ⟨hlisted, firstUnseen_nodup hpredictions, ?_⟩
  intro text hin other hother heq
  obtain ⟨prediction, hprediction, rfl⟩ := List.mem_map.mp hother
  exact (mem_firstUnseen hprediction).2 (heq ▸ hin)

/-! ### Where predictions come from -/

section
variable {unicode : UnicodeTable} {Error : Type} {dictionary : PredictionDictionary Error}
  {candidate : Lattice.Candidate} {predictions : List PostCompositionPrediction}

theorem emojiCandidates_continue (search : Option (Text → List Text)) :
    ∀ prediction ∈ emojiCandidates search candidate, Continues candidate.entries prediction := by
  cases search with
  | none =>
    intro prediction hin
    cases hin
  | some search =>
    intro prediction hin
    obtain ⟨emoji, -, rfl⟩ := List.mem_map.mp hin
    simp [Continues, PostCompositionPrediction.new]

theorem mem_take_sorted {output : List PostCompositionPrediction} {nBest : Nat}
    {prediction : PostCompositionPrediction}
    (h : prediction ∈ (sortPredictions output).take nBest) :
    prediction ∈ output :=
  (sortPredictions_perm output).mem_iff.mp (List.mem_of_mem_take h)

theorem zeroHints_continue {nBest : Nat}
    (h : zeroHints dictionary candidate nBest = .ok predictions) :
    ∀ prediction ∈ predictions, Continues candidate.entries prediction := by
  unfold zeroHints at h
  split at h
  · cases h
    intro prediction hin
    cases hin
  · next last _ =>
    obtain ⟨entries, -, h⟩ := Loop.bind_eq_ok.mp h
    obtain ⟨output, houtput, h⟩ := Loop.bind_eq_ok.mp h
    cases h
    intro prediction hin
    obtain ⟨entry, -, hmade⟩ := Loop.mem_of_mapM_ok houtput (mem_take_sorted hin)
    obtain ⟨connection, -, hmade⟩ := Loop.bind_eq_ok.mp hmade
    cases hmade
    simp [Continues, PostCompositionPrediction.new]

structure ReplacementState.Splits (state : ReplacementState) (entries : List DictionaryEntry) :
    Prop where
  whole : state.prefixEntries ++ state.targetEntries = entries
  word : state.totalWord = state.targetEntries.flatMap DictionaryEntry.word

theorem ReplacementState.Splits.step {state next : ReplacementState}
    {entries : List DictionaryEntry} {entry : DictionaryEntry} (h : state.Splits entries)
    (hentry : state.prefixEntries.getLast? = some entry)
    (hnext : state.step dictionary entry = .ok next) :
    next.Splits entries ∧ next.targetEntries = entry :: state.targetEntries := by
  unfold ReplacementState.step at hnext
  obtain ⟨connection, -, hnext⟩ := Loop.bind_eq_ok.mp hnext
  cases hnext
  have hlast : state.prefixEntries.dropLast ++ [entry] = state.prefixEntries :=
    List.dropLast_append_getLast? entry hentry
  refine ⟨⟨?_, ?_⟩, rfl⟩
  · rw [← h.whole, ← hlast, List.append_assoc, List.dropLast_concat]
    rfl
  · simp only
    rw [h.word, List.flatMap_cons]

theorem replacementsOf_continue {state : ReplacementState} (h : state.Splits candidate.entries)
    (hsome : state.targetEntries ≠ []) (hthree : state.targetEntries.length ≤ 3)
    (hfound : replacementsOf unicode dictionary state = .ok predictions) :
    ∀ prediction ∈ predictions, Continues candidate.entries prediction := by
  unfold replacementsOf at hfound
  obtain ⟨entries, -, hfound⟩ := Loop.bind_eq_ok.mp hfound
  intro prediction hin
  obtain ⟨replacement, hreplacement, hmade⟩ := Loop.mem_of_mapM_ok hfound hin
  obtain ⟨connection, -, hmade⟩ := Loop.bind_eq_ok.mp hmade
  cases hmade
  obtain ⟨-, hguard⟩ := List.mem_filter.mp hreplacement
  rw [Bool.and_eq_true] at hguard
  -- the target's words are the beginning of the longer word
  obtain ⟨rest, hrest⟩ := List.isPrefixOf_iff_prefix.mp hguard.2
  refine ⟨hsome, hthree, ⟨_, h.whole⟩, ?_⟩
  simp only [PostCompositionPrediction.new, List.flatMap_singleton]
  rw [← hrest, List.drop_left' rfl, h.word]

/-- Each round takes one more entry into the target, three at most. -/
theorem replacementsFrom_continue {remaining : Nat} {state : ReplacementState}
    {output : List PostCompositionPrediction} (h : state.Splits candidate.entries)
    (hthree : state.targetEntries.length + remaining ≤ 3)
    (houtput : ∀ prediction ∈ output, Continues candidate.entries prediction)
    (hfound : replacementsFrom unicode dictionary remaining state output = .ok predictions) :
    ∀ prediction ∈ predictions, Continues candidate.entries prediction := by
  induction remaining generalizing state output with
  | zero =>
    cases hfound
    exact houtput
  | succ remaining ih =>
    rw [replacementsFrom] at hfound
    split at hfound
    · cases hfound
      exact houtput
    · next entry hentry =>
      obtain ⟨next, hnext, hfound⟩ := Loop.bind_eq_ok.mp hfound
      obtain ⟨found, hmade, hfound⟩ := Loop.bind_eq_ok.mp hfound
      obtain ⟨hsplits, htarget⟩ := h.step hentry hnext
      have hlength : next.targetEntries.length = state.targetEntries.length + 1 := by
        rw [htarget, List.length_cons]
      have hmore := replacementsOf_continue hsplits (by simp [htarget]) (by omega) hmade
      refine ih hsplits (by omega) ?_ hfound
      intro prediction hin
      exact (List.mem_append.mp hin).elim (houtput prediction) (hmore prediction)

theorem replacements_continue {nBest : Nat}
    (h : replacements unicode dictionary candidate nBest = .ok predictions) :
    ∀ prediction ∈ predictions, Continues candidate.entries prediction := by
  unfold replacements at h
  obtain ⟨output, houtput, h⟩ := Loop.bind_eq_ok.mp h
  cases h
  intro prediction hin
  refine replacementsFrom_continue ⟨List.append_nil _, rfl⟩ ?_ (by simp) houtput prediction
    (mem_take_sorted hin)
  rw [List.length_nil, Nat.zero_add]
  exact Nat.min_le_right _ _

/-- What is predicted comes from one of the three sources, and has a text of its own. -/
theorem predict_spec {search : Option (Text → List Text)}
    (h : predict unicode dictionary search candidate = .ok predictions) :
    predictions.length ≤ 10 ∧ (predictions.map PostCompositionPrediction.text).Nodup ∧
      ∀ prediction ∈ predictions,
        prediction.text ≠ [] ∧ Continues candidate.entries prediction := by
  unfold predict at h
  obtain ⟨hints, hhints, h⟩ := Loop.bind_eq_ok.mp h
  obtain ⟨replaced, hreplaced, h⟩ := Loop.bind_eq_ok.mp h
  cases h
  obtain ⟨emoji, hemoji⟩ : ∃ emoji, emoji =
      ((uniquePredictions (emojiCandidates search candidate)).reverse.take 3).reverse := ⟨_, rfl⟩
  rw [← hemoji]
  have hfew : emoji.length ≤ 3 := by
    rw [hemoji, List.length_reverse]
    exact List.length_take_le _ _
  have hemojiIn : ∀ prediction ∈ emoji,
      prediction ∈ uniquePredictions (emojiCandidates search candidate) := by
    intro prediction hin
    rw [hemoji, List.mem_reverse] at hin
    exact List.mem_reverse.mp (List.mem_of_mem_take hin)
  have hemojiNodup : (emoji.map PostCompositionPrediction.text).Nodup := by
    rw [hemoji, List.map_reverse, List.nodup_reverse]
    refine List.Nodup.sublist ((List.take_sublist _ _).map _) ?_
    rw [List.map_reverse, List.nodup_reverse]
    exact uniquePredictions_nodup _
  obtain ⟨shown, hshown⟩ : ∃ shown, shown = firstUnseen (emoji.map PostCompositionPrediction.text)
      (uniquePredictions replaced) (max ((10 - emoji.length) / 2)
        (10 - (emoji.length + (limitParticles 0 (uniquePredictions hints)).length))) := ⟨_, rfl⟩
  rw [← hshown]
  have hshownLength : shown.length ≤ 10 - emoji.length := by
    rw [hshown]
    refine (firstUnseen_length _ _ _).trans ?_
    omega
  have hshownNodup : ((emoji ++ shown).map PostCompositionPrediction.text).Nodup := by
    rw [hshown]
    exact append_firstUnseen_nodup hemojiNodup (uniquePredictions_nodup _)
  rw [← List.map_append]
  refine ⟨?_, append_firstUnseen_nodup hshownNodup (uniquePredictions_nodup _), ?_⟩
  · have hrest := firstUnseen_length ((emoji ++ shown).map PostCompositionPrediction.text)
      (uniquePredictions (limitParticles 0 (uniquePredictions hints)))
      (10 - (emoji ++ shown).length)
    simp only [List.length_append] at hrest ⊢
    omega
  · intro prediction hin
    obtain hin | hin := List.mem_append.mp hin
    · obtain hin | hin := List.mem_append.mp hin
      · obtain ⟨hsource, htext⟩ := mem_uniquePredictions (hemojiIn prediction hin)
        exact ⟨htext, emojiCandidates_continue search prediction hsource⟩
      · rw [hshown] at hin
        obtain ⟨hsource, htext⟩ := mem_uniquePredictions (mem_firstUnseen hin).1
        exact ⟨htext, replacements_continue hreplaced prediction hsource⟩
    · obtain ⟨hsource, htext⟩ := mem_uniquePredictions (mem_firstUnseen hin).1
      exact ⟨htext, zeroHints_continue hhints prediction
        (mem_uniquePredictions (mem_limitParticles hsource)).1⟩

/-- Whatever is predicted, joining it to the candidate adds the text it shows to the candidate's;
it appends entries, or replaces one to three of the last ones. There are at most ten predictions,
with different texts that are not empty. -/
theorem predictions_join (dictionary : PredictionDictionary Error)
    (search : Option (Text → List Text)) (candidate : Lattice.Candidate)
    (htext : candidate.text = candidate.entries.flatMap DictionaryEntry.word)
    {predictions : List PostCompositionPrediction}
    (h : predict unicode dictionary search candidate = .ok predictions) :
    predictions.length ≤ 10 ∧ (predictions.map PostCompositionPrediction.text).Nodup ∧
      ∀ prediction ∈ predictions, prediction.text ≠ [] ∧
        (prediction.join unicode candidate).text = candidate.text ++ prediction.text ∧
        (prediction.join unicode candidate).text =
          (prediction.join unicode candidate).entries.flatMap DictionaryEntry.word ∧
        ((∃ additional, prediction.kind = .additional additional ∧
            (prediction.join unicode candidate).entries = candidate.entries ++ additional) ∨
          ∃ before targetEntries replacementEntries,
            prediction.kind = .replacement targetEntries replacementEntries ∧
            candidate.entries = before ++ targetEntries ∧
            1 ≤ targetEntries.length ∧ targetEntries.length ≤ 3 ∧
            (prediction.join unicode candidate).entries = before ++ replacementEntries) := by
  obtain ⟨hlength, hnodup, hall⟩ := predict_spec h
  refine ⟨hlength, hnodup, fun prediction hin => ?_⟩
  obtain ⟨hne, hcontinues⟩ := hall prediction hin
  have hwords := hcontinues.words
  refine ⟨hne, ?_, rfl, ?_⟩
  · rw [htext]
    exact hwords
  · unfold Continues at hcontinues
    cases hkind : prediction.kind with
    | additional additional =>
      refine .inl ⟨additional, rfl, ?_⟩
      simp [PostCompositionPrediction.join, Lattice.Candidate.single,
        PostCompositionPrediction.joinedEntries, hkind]
    | replacement targetEntries replacementEntries =>
      rw [hkind] at hcontinues
      obtain ⟨hsome, hthree, ⟨before, hbefore⟩, -⟩ := hcontinues
      refine .inr ⟨before, targetEntries, replacementEntries, rfl, hbefore.symm,
        List.length_pos_iff.mpr hsome, hthree, ?_⟩
      simp [PostCompositionPrediction.join, Lattice.Candidate.single,
        PostCompositionPrediction.joinedEntries, hkind, ← hbefore]

def kanaDictionary : PredictionDictionary Empty where
  zeroHintEntries _ := .ok [entryOf ['は'] ['ハ']]
  entriesAfterPrefix _ _ _ := .ok [entryOf ['仮', '名'] ['カ', 'ナ']]
  connectionCost _ _ := .ok 0
  meaningCost _ _ := none
where
  entryOf (word ruby : Text) : DictionaryEntry :=
    { word, ruby, leftId := 1285, rightId := 1285, meaningId := 501, baseValue := -5 }

def twoWords : Lattice.Candidate :=
  .single .kana ['木', '仮'] 0 (.surface 2) 501
    [kanaDictionary.entryOf ['木'] ['キ'], kanaDictionary.entryOf ['仮'] ['カ']]

theorem predictions_join_two :
    ∃ predictions, predict .kana kanaDictionary (some fun _ => [['🎭']]) twoWords =
          .ok predictions ∧
      predictions.length ≤ 10 ∧ (predictions.map PostCompositionPrediction.text).Nodup ∧
      ∀ prediction ∈ predictions,
        (prediction.join .kana twoWords).text = ['木', '仮'] ++ prediction.text := by
  obtain ⟨predictions, hpredictions⟩ : ∃ predictions,
      predict .kana kanaDictionary (some fun _ => [['🎭']]) twoWords = .ok predictions := by
    cases hpredicted : predict .kana kanaDictionary (some fun _ => [['🎭']]) twoWords with
    | ok predictions => exact ⟨predictions, rfl⟩
    | error error => exact error.elim
  obtain ⟨hlength, hnodup, hall⟩ := predictions_join kanaDictionary _ _ rfl hpredictions
  exact ⟨predictions, hpredictions, hlength, hnodup,
    fun prediction hin => (hall prediction hin).2.1⟩

example : (predict .kana kanaDictionary (some fun _ => [['🎭']]) twoWords).toOption.map
    (List.map PostCompositionPrediction.text) = some [['🎭'], ['名'], ['は']] := by
  decide +kernel

end

end BeanKey.Session
