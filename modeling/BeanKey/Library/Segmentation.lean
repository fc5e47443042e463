import Mathlib.Data.List.Basic

/-! Cutting a text into clusters, left to right. A rule decides from the cluster
read so far whether the next character joins it; the rule of UAX #29 is the one
used for grapheme clusters. -/
namespace Segmentation
variable {χ ψ : Type*}

/-- `joins current c`: the character `c` joins the cluster `current`, which is kept
with its last character first and is never empty. -/
abbrev JoinRule (χ : Type*) := List χ → χ → Bool

def segmentFrom (joins : JoinRule χ) (current : List χ) : List χ → List (List χ)
  | [] => [current.reverse]
  | c :: cs =>
    if joins current c then segmentFrom joins (c :: current) cs
    else current.reverse :: segmentFrom joins [c] cs

def segment (joins : JoinRule χ) : List χ → List (List χ)
  | [] => []
  | c :: cs => segmentFrom joins [c] cs

@[simp] theorem segment_nil (joins : JoinRule χ) : segment joins [] = [] := rfl

theorem segment_cons (joins : JoinRule χ) (c : χ) (cs : List χ) :
    segment joins (c :: cs) = segmentFrom joins [c] cs := rfl

theorem flatten_segmentFrom (joins : JoinRule χ) (current cs : List χ) :
    (segmentFrom joins current cs).flatten = current.reverse ++ cs := by
  induction cs generalizing current with
  | nil => simp [segmentFrom]
  | cons c cs ih =>
    by_cases h : joins current c
    · simp [segmentFrom, h, ih]
    · simp [segmentFrom, h, ih]

/-- No character is lost and none moves. -/
@[simp] theorem flatten_segment (joins : JoinRule χ) (s : List χ) :
    (segment joins s).flatten = s := by
  cases s with
  | nil => rfl
  | cons c cs => simp [segment, flatten_segmentFrom]

theorem segmentFrom_ne_nil (joins : JoinRule χ) (current cs : List χ) :
    segmentFrom joins current cs ≠ [] := by
  induction cs generalizing current with
  | nil => simp [segmentFrom]
  | cons c cs ih =>
    by_cases h : joins current c
    · simpa [segmentFrom, h] using ih (c :: current)
    · simp [segmentFrom, h]

theorem segment_eq_nil (joins : JoinRule χ) {s : List χ} : segment joins s = [] ↔ s = [] := by
  cases s with
  | nil => simp
  | cons c cs => simp [segment, segmentFrom_ne_nil]

theorem ne_nil_of_mem_segmentFrom (joins : JoinRule χ) {current : List χ} (cs : List χ)
    (hcurrent : current ≠ []) {cluster : List χ} (h : cluster ∈ segmentFrom joins current cs) :
    cluster ≠ [] := by
  induction cs generalizing current with
  | nil =>
    rw [segmentFrom, List.mem_singleton] at h
    simpa [h] using hcurrent
  | cons c cs ih =>
    by_cases hj : joins current c
    · rw [segmentFrom, if_pos hj] at h
      exact ih (List.cons_ne_nil c current) h
    · rw [segmentFrom, if_neg hj, List.mem_cons] at h
      cases h with
      | inl h => simpa [h] using hcurrent
      | inr h => exact ih (List.cons_ne_nil c []) h

theorem ne_nil_of_mem_segment (joins : JoinRule χ) {s cluster : List χ}
    (h : cluster ∈ segment joins s) : cluster ≠ [] := by
  cases s with
  | nil => exact absurd h List.not_mem_nil
  | cons c cs => exact ne_nil_of_mem_segmentFrom joins cs (List.cons_ne_nil c []) h

/-- What follows the first cluster is segmented on its own: the rule never looks
behind the cluster it is building. -/
theorem segmentFrom_tail (joins : JoinRule χ) (current cs : List χ) (g : List χ)
    (gs : List (List χ)) (h : segmentFrom joins current cs = g :: gs) :
    segment joins gs.flatten = gs := by
  induction cs generalizing current with
  | nil =>
    obtain ⟨-, rfl⟩ := List.cons.inj h
    rfl
  | cons c cs ih =>
    by_cases hj : joins current c
    · rw [segmentFrom, if_pos hj] at h
      exact ih (c :: current) h
    · rw [segmentFrom, if_neg hj] at h
      obtain ⟨-, rfl⟩ := List.cons.inj h
      simp [flatten_segmentFrom, segment_cons]

theorem segment_tail (joins : JoinRule χ) (s g : List χ) (gs : List (List χ))
    (h : segment joins s = g :: gs) : segment joins gs.flatten = gs := by
  cases s with
  | nil => simp at h
  | cons c cs => exact segmentFrom_tail joins [c] cs g gs h

theorem segment_flatten_drop (joins : JoinRule χ) (s : List χ) (k : Nat) :
    segment joins ((segment joins s).drop k).flatten = (segment joins s).drop k := by
  induction k generalizing s with
  | zero => simp
  | succ k ih =>
    cases hs : segment joins s with
    | nil => simp
    | cons g gs =>
      have htail := segment_tail joins s g gs hs
      have := ih gs.flatten
      rwa [htail] at this

theorem segmentFrom_take (joins : JoinRule χ) (current cs : List χ) (k : Nat) :
    ∃ part, ((segmentFrom joins current cs).take (k + 1)).flatten = current.reverse ++ part ∧
      segmentFrom joins current part = (segmentFrom joins current cs).take (k + 1) := by
  induction cs generalizing current k with
  | nil => exact ⟨[], by simp [segmentFrom], by simp [segmentFrom]⟩
  | cons c cs ih =>
    by_cases h : joins current c
    · obtain ⟨part, hflat, hcut⟩ := ih (c :: current) k
      exact ⟨c :: part, by simpa [segmentFrom, h] using hflat, by simpa [segmentFrom, h] using hcut⟩
    · cases k with
      | zero => exact ⟨[], by simp [segmentFrom, h], by simp [segmentFrom, h]⟩
      | succ k =>
        obtain ⟨part, hflat, hcut⟩ := ih [c] k
        refine ⟨c :: part, ?_, ?_⟩
        · simpa [segmentFrom, h] using hflat
        · simpa [segmentFrom, h] using hcut

/-- Whole clusters at the start of a text are its clusters on their own. -/
theorem segment_flatten_take (joins : JoinRule χ) (s : List χ) (k : Nat) :
    segment joins ((segment joins s).take k).flatten = (segment joins s).take k := by
  cases k with
  | zero => rfl
  | succ k =>
    cases s with
    | nil => rfl
    | cons c cs =>
      obtain ⟨part, hflat, hcut⟩ := segmentFrom_take joins [c] cs k
      rw [segment_cons, hflat]
      simpa [segment_cons] using hcut

/-- The first cluster takes what joins it, and the rest is segmented on its own. -/
theorem segmentFrom_eq_cons (joins : JoinRule χ) (current cs : List χ) :
    ∃ joined rest, cs = joined ++ rest ∧
      segmentFrom joins current cs = (current.reverse ++ joined) :: segment joins rest := by
  induction cs generalizing current with
  | nil => exact ⟨[], [], rfl, by simp [segmentFrom]⟩
  | cons c cs ih =>
    by_cases h : joins current c
    · obtain ⟨joined, rest, rfl, hcut⟩ := ih (c :: current)
      exact ⟨c :: joined, rest, rfl, by simp [segmentFrom, h, hcut]⟩
    · exact ⟨[], c :: cs, rfl, by simp [segmentFrom, h, segment_cons]⟩

theorem segmentFrom_append (joins : JoinRule χ) (current first second : List χ) :
    ∃ joined rest, second = joined ++ rest ∧
      ((segmentFrom joins current (first ++ second)).take
        (segmentFrom joins current first).length).flatten = current.reverse ++ first ++ joined ∧
      (segmentFrom joins current (first ++ second)).drop (segmentFrom joins current first).length =
        segment joins rest := by
  induction first generalizing current with
  | nil =>
    obtain ⟨joined, rest, hsecond, hcut⟩ := segmentFrom_eq_cons joins current second
    exact ⟨joined, rest, hsecond, by simp [hcut, segmentFrom], by simp [hcut, segmentFrom]⟩
  | cons c first ih =>
    by_cases h : joins current c
    · obtain ⟨joined, rest, hsecond, htake, hdrop⟩ := ih (c :: current)
      exact ⟨joined, rest, hsecond, by simpa [segmentFrom, h] using htake,
        by simpa [segmentFrom, h] using hdrop⟩
    · obtain ⟨joined, rest, hsecond, htake, hdrop⟩ := ih [c]
      exact ⟨joined, rest, hsecond, by simpa [segmentFrom, h] using htake,
        by simpa [segmentFrom, h] using hdrop⟩

/-- As many clusters as the first part has alone hold it, with what its last cluster takes of the
second part. -/
theorem segment_append (joins : JoinRule χ) (first second : List χ) :
    ∃ joined rest, second = joined ++ rest ∧
      ((segment joins (first ++ second)).take (segment joins first).length).flatten =
      first ++ joined ∧
      (segment joins (first ++ second)).drop (segment joins first).length = segment joins rest := by
  cases first with
  | nil => exact ⟨[], second, rfl, by simp, by simp⟩
  | cons c first =>
    obtain ⟨joined, rest, hsecond, htake, hdrop⟩ := segmentFrom_append joins [c] first second
    exact ⟨joined, rest,
      hsecond, by simpa [segment_cons] using htake, by simpa [segment_cons] using hdrop⟩

/-- A character map that the rule cannot see commutes with segmentation. -/
theorem segmentFrom_map (joins : JoinRule χ) (joins' : JoinRule ψ) (f : χ → ψ)
    (hf : ∀ current c, joins' (current.map f) (f c) = joins current c)
    (current cs : List χ) :
    segmentFrom joins' (current.map f) (cs.map f) =
      (segmentFrom joins current cs).map (List.map f) := by
  induction cs generalizing current with
  | nil => simp [segmentFrom]
  | cons c cs ih =>
    have hone := ih [c]
    have hmore := ih (c :: current)
    simp only [List.map_cons, List.map_nil] at hone hmore
    by_cases h : joins current c
    · simp [segmentFrom, hf, h, hmore]
    · simp [segmentFrom, hf, h, hone]

theorem segment_map (joins : JoinRule χ) (joins' : JoinRule ψ) (f : χ → ψ)
    (hf : ∀ current c, joins' (current.map f) (f c) = joins current c) (s : List χ) :
    segment joins' (s.map f) = (segment joins s).map (List.map f) := by
  cases s with
  | nil => rfl
  | cons c cs => simpa [segment] using segmentFrom_map joins joins' f hf [c] cs

/-! ### Pieces that stay apart -/

/-- Put together in any order, the pieces are the clusters of the text they make. -/
def Apart (joins : JoinRule χ) (pieces : List χ → Prop) : Prop :=
  ∀ text : List (List χ), (∀ piece ∈ text, pieces piece) → segment joins text.flatten = text

theorem Apart.mono {joins : JoinRule χ} {pieces more : List χ → Prop} (h : Apart joins more)
    (hpieces : ∀ piece, pieces piece → more piece) : Apart joins pieces :=
  fun text htext => h text fun piece hin => hpieces piece (htext piece hin)

/-- Single characters that never join each other stay apart. -/
theorem apart_of_lone {joins : JoinRule χ} {lone : χ → Prop}
    (hlone : ∀ c d, lone c → lone d → joins [c] d = false) :
    Apart joins fun piece => ∃ c, piece = [c] ∧ lone c := by
  intro text htext
  induction text with
  | nil => rfl
  | cons piece rest ih =>
    obtain ⟨⟨c, rfl, hc⟩, hrest⟩ := List.forall_mem_cons.mp htext
    have htail := ih hrest
    cases rest with
    | nil => rfl
    | cons next rest =>
      obtain ⟨⟨d, rfl, hd⟩, -⟩ := List.forall_mem_cons.mp hrest
      change segmentFrom joins [c] (d :: rest.flatten) = _
      rw [segmentFrom, if_neg (by simp [hlone c d hc hd])]
      exact congrArg ([c] :: ·) htail

/-! ### Grapheme clusters -/

inductive Break where
  | cr | lf | control | extend | zwj | regionalIndicator | prepend | spacingMark
  | l | v | t | lv | lvt | other
  deriving DecidableEq, Repr

inductive Conjunct where
  | none | consonant | linker | extend
  deriving DecidableEq, Repr

structure Properties where
  kind : Break
  pictographic : Bool := false
  conjunct : Conjunct := .none
  deriving DecidableEq, Repr

/-- GB11: a pictograph, any extenders, and a joiner end the cluster. -/
def endsPictographicJoiner : List Properties → Bool
  | p :: ps => p.kind = .zwj &&
      ((ps.dropWhile fun q => q.kind = .extend).head?.any fun q => q.pictographic)
  | [] => false

/-- GB9c: a consonant followed by extenders and linkers, at least one a linker. -/
def endsConjunctLinker (ps : List Properties) : Bool :=
  let tail := ps.takeWhile fun q => q.conjunct = .linker || q.conjunct = .extend
  let rest := ps.drop tail.length
  tail.any (fun q => q.conjunct = .linker) && rest.head?.any fun q => q.conjunct = .consonant

/-- GB12 and GB13: an odd number of regional indicators ends the cluster. -/
def endsOddIndicators (ps : List Properties) : Bool :=
  (ps.takeWhile fun q => q.kind = .regionalIndicator).length % 2 = 1

/-- The rules GB3 to GB999 between a cluster and the character after it. -/
def joinsCluster (current : List Properties) (next : Properties) : Bool :=
  match current with
  | [] => false
  | previous :: _ =>
    match previous.kind, next.kind with
    | .cr, .lf => true
    | .control, _ | .cr, _ | .lf, _ => false
    | _, .control | _, .cr | _, .lf => false
    | .l, .l | .l, .v | .l, .lv | .l, .lvt => true
    | .lv, .v | .lv, .t | .v, .v | .v, .t => true
    | .lvt, .t | .t, .t => true
    | _, .extend | _, .zwj => true
    | _, .spacingMark => true
    | .prepend, _ => true
    | _, _ =>
      (next.conjunct = .consonant && endsConjunctLinker current) ||
      (next.pictographic && endsPictographicJoiner current) ||
      (next.kind = .regionalIndicator && endsOddIndicators current)

def clusterRule (properties : χ → Properties) : JoinRule χ :=
  fun current c => joinsCluster (current.map properties) (properties c)

theorem clusterRule_map (properties : χ → Properties) (properties' : ψ → Properties) (f : χ → ψ)
    (hf : ∀ c, properties' (f c) = properties c) (current : List χ) (c : χ) :
    clusterRule properties' (current.map f) (f c) = clusterRule properties current c := by
  have hcomp : properties' ∘ f = properties := funext hf
  simp [clusterRule, hf, hcomp]

/-- Characters without a property that joins them to others stay apart. -/
theorem apart_of_other (properties : χ → Properties) :
    Apart (clusterRule properties) fun piece => ∃ c, piece = [c] ∧ properties c =
      { kind := .other } := by
  apply apart_of_lone
  intro c d hc hd
  simp [clusterRule, joinsCluster, hc, hd]

end Segmentation
