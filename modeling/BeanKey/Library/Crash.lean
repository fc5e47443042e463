import Mathlib.Logic.Function.Basic
import Mathlib.Logic.Relation
import Mathlib.Data.List.Nodup

/-! Programs of file steps that can fail or be cut off anywhere. A triple says where a
whole run ends and what a cut one leaves behind. -/
namespace Crash

abbrev Files (Name Content : Type) := Name → Option Content

inductive Step (Name Content : Type) where
  | write (name : Name) (content : Content)
  | copy (source destination : Name)
  | remove (name : Name)

variable {Name Content : Type} [DecidableEq Name]

def Step.target : Step Name Content → Name
  | .write name _ => name
  | .copy _ destination => destination
  | .remove name => name

/-- A copy fails when its source is missing; removing a missing file succeeds. -/
def Step.run (files : Files Name Content) : Step Name Content → Option (Files Name Content)
  | .write name content => some (Function.update files name (some content))
  | .copy source destination =>
    (files source).map fun content => Function.update files destination (some content)
  | .remove name => some (Function.update files name none)

/-- What a step that does not end may leave: nothing changed, or anything in the file it
was writing. -/
inductive Step.Torn (files : Files Name Content) :
    Step Name Content → Files Name Content → Prop
  | untouched (step : Step Name Content) : Torn files step files
  | written (name : Name) (content left : Content) :
    Torn files (.write name content) (Function.update files name (some left))
  | copied (source destination : Name) (left : Content) :
    Torn files (.copy source destination) (Function.update files destination (some left))

def runAll (steps : List (Step Name Content)) (files : Files Name Content) :
    Option (Files Name Content) :=
  steps.foldlM (fun files step => step.run files) files

/-- The files a run may leave that stops before a step, inside one, or after the last. -/
inductive Cut : List (Step Name Content) → Files Name Content → Files Name Content → Prop
  | stop (steps : List (Step Name Content)) (files : Files Name Content) : Cut steps files files
  | torn {step : Step Name Content} {files left : Files Name Content}
      (rest : List (Step Name Content)) (h : step.Torn files left) : Cut (step :: rest) files left
  | next {step : Step Name Content} {files after left : Files Name Content}
      {rest : List (Step Name Content)} (hstep : step.run files = some after)
      (hrest : Cut rest after left) : Cut (step :: rest) files left

@[simp] theorem runAll_nil (files : Files Name Content) :
    runAll ([] : List (Step Name Content)) files = some files := rfl

@[simp] theorem runAll_cons (step : Step Name Content) (rest : List (Step Name Content))
    (files : Files Name Content) :
    runAll (step :: rest) files = (step.run files).bind (runAll rest) := rfl

theorem runAll_append (first second : List (Step Name Content)) (files : Files Name Content) :
    runAll (first ++ second) files = (runAll first files).bind (runAll second) :=
  List.foldlM_append

/-- A whole run is a cut after the last step. -/
theorem cut_of_runAll {steps : List (Step Name Content)} {files after : Files Name Content}
    (h : runAll steps files = some after) : Cut steps files after := by
  induction steps generalizing files with
  | nil =>
    obtain rfl := Option.some.inj h
    exact .stop _ _
  | cons step rest ih =>
    cases hstep : step.run files with
    | none => simp [hstep] at h
    | some next =>
      simp only [runAll_cons, hstep, Option.bind_some] at h
      exact .next hstep (ih h)

theorem cut_append {first second : List (Step Name Content)} {files left : Files Name Content}
    (h : Cut (first ++ second) files left) :
    Cut first files left ∨ ∃ middle, runAll first files = some middle ∧ Cut second middle left := by
  induction first generalizing files with
  | nil => exact .inr ⟨files, rfl, h⟩
  | cons step rest ih =>
    cases h with
    | stop => exact .inl (.stop _ _)
    | torn _ htorn => exact .inl (.torn _ htorn)
    | next hstep hrest =>
      cases ih hrest with
      | inl hcut => exact .inl (.next hstep hcut)
      | inr hdone =>
        obtain ⟨middle, hrun, hcut⟩ := hdone
        exact .inr ⟨middle, by simp [hstep, hrun], hcut⟩

theorem cut_append_of_runAll {first second : List (Step Name Content)}
    {files middle left : Files Name Content} (h : runAll first files = some middle)
    (hcut : Cut second middle left) : Cut (first ++ second) files left := by
  induction first generalizing files with
  | nil =>
    obtain rfl := Option.some.inj h
    exact hcut
  | cons step rest ih =>
    cases hstep : step.run files with
    | none => simp [hstep] at h
    | some next =>
      simp only [runAll_cons, hstep, Option.bind_some] at h
      exact .next hstep (ih h)

/-! ### A step touches its target only -/

theorem Step.run_frame {step : Step Name Content} {files after : Files Name Content}
    (h : step.run files = some after) {name : Name} (hname : name ≠ step.target) :
    after name = files name := by
  cases step with
  | write target content =>
    obtain rfl := Option.some.inj h
    exact Function.update_of_ne hname _ _
  | copy source destination =>
    obtain ⟨content, -, rfl⟩ := Option.map_eq_some_iff.mp h
    exact Function.update_of_ne hname _ _
  | remove target =>
    obtain rfl := Option.some.inj h
    exact Function.update_of_ne hname _ _

theorem Step.Torn.frame {step : Step Name Content} {files left : Files Name Content}
    (h : step.Torn files left) {name : Name} (hname : name ≠ step.target) :
    left name = files name := by
  cases h with
  | untouched => rfl
  | written => exact Function.update_of_ne hname _ _
  | copied => exact Function.update_of_ne hname _ _

theorem runAll_frame {steps : List (Step Name Content)} {files after : Files Name Content}
    (h : runAll steps files = some after) {name : Name}
    (hname : ∀ step ∈ steps, name ≠ step.target) : after name = files name := by
  induction steps generalizing files with
  | nil => exact congrFun (Option.some.inj h).symm name
  | cons step rest ih =>
    cases hstep : step.run files with
    | none => simp [hstep] at h
    | some next =>
      simp only [runAll_cons, hstep, Option.bind_some] at h
      rw [ih h fun other hin => hname other (List.mem_cons_of_mem _ hin),
        Step.run_frame hstep (hname step List.mem_cons_self)]

theorem Cut.frame {steps : List (Step Name Content)} {files left : Files Name Content}
    (h : Cut steps files left) {name : Name} (hname : ∀ step ∈ steps, name ≠ step.target) :
    left name = files name := by
  induction h with
  | stop => rfl
  | torn _ htorn => exact htorn.frame (hname _ List.mem_cons_self)
  | next hstep _ ih =>
    rw [ih fun other hin => hname other (List.mem_cons_of_mem _ hin),
      Step.run_frame hstep (hname _ List.mem_cons_self)]

/-! ### Steps that read what they have written -/

def SelfContained (known : Name → Prop) : List (Step Name Content) → Prop
  | [] => True
  | step :: rest => (∀ source destination, step = .copy source destination → known source) ∧
    SelfContained (fun name => known name ∨ name = step.target) rest

omit [DecidableEq Name] in
theorem SelfContained.mono {known known' : Name → Prop} {steps : List (Step Name Content)}
    (h : SelfContained known steps) (hknown : ∀ name, known name → known' name) :
    SelfContained known' steps := by
  induction steps generalizing known known' with
  | nil => trivial
  | cons step rest ih =>
    refine ⟨fun source destination hstep => hknown source (h.1 source destination hstep), ?_⟩
    exact ih h.2 fun name => Or.imp_left (hknown name)

omit [DecidableEq Name] in
theorem selfContained_of_known {known : Name → Prop} {steps : List (Step Name Content)}
    (h : ∀ step ∈ steps, ∀ source destination, step = .copy source destination → known source) :
    SelfContained known steps := by
  induction steps generalizing known with
  | nil => trivial
  | cons step rest ih =>
    obtain ⟨hstep, hrest⟩ := List.forall_mem_cons.mp h
    refine ⟨hstep, ih fun other hother source destination heq => ?_⟩
    exact .inl (hrest other hother source destination heq)

omit [DecidableEq Name] in
theorem SelfContained.append {known : Name → Prop} {first second : List (Step Name Content)}
    (hfirst : SelfContained known first)
    (hsecond : SelfContained (fun name => known name ∨ ∃ step ∈ first, name = step.target) second) :
    SelfContained known (first ++ second) := by
  induction first generalizing known with
  | nil => exact hsecond.mono fun name hname => hname.resolve_right (by simp)
  | cons step rest ih =>
    refine ⟨hfirst.1, ih hfirst.2 (hsecond.mono fun name hname => ?_)⟩
    simpa [or_assoc] using hname

/-- Such steps end in the same files wherever the files differ that they write. -/
theorem runAll_congr {known : Name → Prop} {steps : List (Step Name Content)}
    (h : SelfContained known steps) (hall : ∀ name, known name ∨ ∃ step ∈ steps, name = step.target)
    {files others : Files Name Content} (hagree : ∀ name, known name → files name = others name) :
    runAll steps files = runAll steps others := by
  induction steps generalizing known files others with
  | nil =>
    have hsame : files = others := by
      funext name
      exact hagree name ((hall name).resolve_right (by simp))
    rw [hsame]
  | cons step rest ih =>
    have hnext : ∀ content, runAll rest (Function.update files step.target content) =
        runAll rest (Function.update others step.target content) := by
      intro content
      refine ih h.2 (fun name => ?_) fun name hname => ?_
      · simpa [or_assoc] using hall name
      · by_cases heq : name = step.target
        · rw [heq, Function.update_self, Function.update_self]
        · rw [Function.update_of_ne heq, Function.update_of_ne heq]
          exact hagree name (hname.resolve_right heq)
    rw [runAll_cons, runAll_cons]
    cases step with
    | write name content => exact hnext (some content)
    | copy source destination =>
      have hsource := hagree source (h.1 source destination rfl)
      simp only [Step.run, hsource]
      cases others source with
      | none => rfl
      | some content => exact hnext (some content)
    | remove name => exact hnext none

/-! ### Lists of writes, copies and removals -/

/-- Writing a list of files without a name twice leaves each with its content. -/
theorem runAll_writes (contents : List (Name × Content)) (files : Files Name Content)
    (hnames : (contents.map Prod.fst).Nodup) :
    ∃ after, runAll (contents.map fun (name, content) => .write name content) files = some after ∧
      ∀ pair ∈ contents, after pair.1 = some pair.2 := by
  induction contents generalizing files with
  | nil => exact ⟨files, rfl, fun _ hin => absurd hin List.not_mem_nil⟩
  | cons head rest ih =>
    rw [List.map_cons, List.nodup_cons] at hnames
    obtain ⟨after, hafter, hcontents⟩ := ih (Function.update files head.1 (some head.2)) hnames.2
    refine ⟨after, hafter, ?_⟩
    intro pair hin
    cases List.mem_cons.mp hin with
    | inl heq =>
      have hkept : after head.1 = Function.update files head.1 (some head.2) head.1 := by
        refine runAll_frame hafter ?_
        intro step hstep heq
        obtain ⟨other, hother, rfl⟩ := List.mem_map.mp hstep
        exact hnames.1 (List.mem_map.mpr ⟨other, hother, heq.symm⟩)
      rw [heq, hkept, Function.update_self]
    | inr hrest => exact hcontents pair hrest

/-- Copying files onto names that are nobody's source leaves each copy with what its source
holds. -/
theorem runAll_copies (copies : List (Name × Name)) (files : Files Name Content)
    (hsources : ∀ pair ∈ copies, (files pair.1).isSome)
    (hapart : ∀ first ∈ copies, ∀ second ∈ copies, first.1 ≠ second.2)
    (htargets : ∀ first ∈ copies, ∀ second ∈ copies, first.2 = second.2 → first.1 = second.1) :
    ∃ after, runAll (copies.map fun (source, destination) => .copy source destination) files =
        some after ∧ ∀ pair ∈ copies, after pair.2 = files pair.1 := by
  induction copies generalizing files with
  | nil => exact ⟨files, rfl, fun _ hin => absurd hin List.not_mem_nil⟩
  | cons head rest ih =>
    obtain ⟨content, hcontent⟩ := Option.isSome_iff_exists.mp (hsources head List.mem_cons_self)
    have hkept : ∀ pair ∈ head :: rest,
        Function.update files head.2 (some content) pair.1 = files pair.1 := fun pair hin =>
      Function.update_of_ne (hapart pair hin head List.mem_cons_self) _ _
    obtain ⟨after, hafter, hcopied⟩ := ih (Function.update files head.2 (some content))
      (fun pair hin => by
        rw [hkept pair (List.mem_cons_of_mem _ hin)]
        exact hsources pair (List.mem_cons_of_mem _ hin))
      (fun first hfirst second hsecond => hapart first (List.mem_cons_of_mem _ hfirst) second
        (List.mem_cons_of_mem _ hsecond))
      (fun first hfirst second hsecond => htargets first (List.mem_cons_of_mem _ hfirst) second
        (List.mem_cons_of_mem _ hsecond))
    refine ⟨after, by simp [Step.run, hcontent, hafter], ?_⟩
    intro pair hin
    by_cases hlater : ∃ other ∈ rest, other.2 = pair.2
    · obtain ⟨other, hother, hsame⟩ := hlater
      have hother' := List.mem_cons_of_mem head hother
      rw [← hsame, hcopied other hother, hkept other hother',
        htargets other hother' pair hin hsame]
    · have hhead : pair = head := by
        cases List.mem_cons.mp hin with
        | inl heq => exact heq
        | inr hrest => exact absurd ⟨pair, hrest, rfl⟩ hlater
      have hlast : after head.2 = Function.update files head.2 (some content) head.2 := by
        refine runAll_frame hafter ?_
        intro step hstep heq
        obtain ⟨other, hother, rfl⟩ := List.mem_map.mp hstep
        exact hlater ⟨other, hother, by rw [hhead]; exact heq.symm⟩
      rw [hhead, hlast, Function.update_self, hcontent]

theorem isSome_of_runAll_copies {copies : List (Name × Name)} {files after : Files Name Content}
    (hapart : ∀ first ∈ copies, ∀ second ∈ copies, first.1 ≠ second.2)
    (h : runAll (copies.map fun (source, destination) => .copy source destination) files =
      some after) : ∀ pair ∈ copies, (files pair.1).isSome := by
  induction copies generalizing files with
  | nil => exact fun _ hin => absurd hin List.not_mem_nil
  | cons head rest ih =>
    cases hsource : files head.1 with
    | none => simp [Step.run, hsource] at h
    | some content =>
      simp only [List.map_cons, runAll_cons, Step.run, hsource, Option.map_some,
        Option.bind_some] at h
      intro pair hin
      cases List.mem_cons.mp hin with
      | inl heq =>
        rw [heq, hsource]
        rfl
      | inr hrest =>
        have hsome := ih (fun first hfirst second hsecond => hapart first
          (List.mem_cons_of_mem _ hfirst) second (List.mem_cons_of_mem _ hsecond)) h pair hrest
        rwa [Function.update_of_ne (hapart pair hin head List.mem_cons_self)] at hsome

def without (files : Files Name Content) (names : List Name) : Files Name Content :=
  fun name => if name ∈ names then none else files name

theorem without_eq_some {files : Files Name Content} {names : List Name} {name : Name}
    {content : Content} :
    without files names name = some content ↔ name ∉ names ∧ files name = some content := by
  by_cases hin : name ∈ names <;> simp [without, hin]

theorem without_eq_none {files : Files Name Content} {names : List Name} {name : Name} :
    without files names name = none ↔ name ∈ names ∨ files name = none := by
  by_cases hin : name ∈ names <;> simp [without, hin]

/-- Removing files always succeeds, and a cut leaves what a prefix of the removals does. -/
theorem runAll_removes (names : List Name) (files : Files Name Content) :
    runAll (names.map Step.remove) files = some (without files names) := by
  induction names generalizing files with
  | nil =>
    congr 1
  | cons head rest ih =>
    simp only [List.map_cons, runAll_cons, Step.run, Option.bind_some, ih]
    congr 1
    funext name
    by_cases hrest : name ∈ rest
    · simp [without, hrest]
    · by_cases hhead : name = head
      · simp [without, hhead]
      · simp [without, hrest, hhead]

theorem cut_removes_iff (names : List Name) (files left : Files Name Content) :
    Cut (names.map Step.remove) files left ↔
      ∃ count ≤ names.length, left = without files (names.take count) := by
  induction names generalizing files with
  | nil =>
    constructor
    · intro h
      cases h with
      | stop => exact ⟨0, Nat.le_refl _, by funext name; simp [without]⟩
    · rintro ⟨count, -, rfl⟩
      have hkept : without files (([] : List Name).take count) = files := by
        funext name
        simp [without]
      rw [hkept]
      exact .stop _ _
  | cons head rest ih =>
    constructor
    · intro h
      cases h with
      | stop => exact ⟨0, Nat.zero_le _, by funext name; simp [without]⟩
      | torn _ htorn =>
        cases htorn with
        | untouched => exact ⟨0, Nat.zero_le _, by funext name; simp [without]⟩
      | next hstep hrest =>
        obtain rfl := Option.some.inj hstep
        obtain ⟨count, hcount, rfl⟩ := (ih _).mp hrest
        refine ⟨count + 1, Nat.succ_le_succ hcount, ?_⟩
        funext name
        by_cases hin : name ∈ rest.take count
        · simp [without, hin]
        · by_cases hhead : name = head <;> simp [without, hin, hhead]
    · rintro ⟨count, hcount, rfl⟩
      cases count with
      | zero =>
        have hkept : without files ((head :: rest).take 0) = files := by
          funext name
          simp [without]
        rw [hkept]
        exact .stop _ _
      | succ count =>
        have hstep : (Step.remove head).run files = some (Function.update files head none) := rfl
        refine .next hstep ((ih _).mpr ⟨count, Nat.le_of_succ_le_succ hcount, ?_⟩)
        funext name
        by_cases hin : name ∈ rest.take count
        · simp [without, hin]
        · by_cases hhead : name = head <;> simp [without, hin, hhead]

/-! ### Triples -/

/-- From `pre`, the run succeeds and ends in `post`, and a cut run leaves `crash`. -/
structure Runs (pre : Files Name Content → Prop) (steps : List (Step Name Content))
    (post crash : Files Name Content → Prop) : Prop where
  done : ∀ files, pre files → ∃ after, runAll steps files = some after ∧ post after
  cut : ∀ files left, pre files → Cut steps files left → crash left

variable {pre mid post crash : Files Name Content → Prop}
  {first second steps : List (Step Name Content)}

theorem Runs.append (hfirst : Runs pre first mid crash) (hsecond : Runs mid second post crash) :
    Runs pre (first ++ second) post crash where
  done files hpre := by
    obtain ⟨middle, hmiddle, hmid⟩ := hfirst.done files hpre
    obtain ⟨after, hafter, hpost⟩ := hsecond.done middle hmid
    exact ⟨after, by rw [runAll_append, hmiddle, Option.bind_some, hafter], hpost⟩
  cut files left hpre hcut := by
    cases cut_append hcut with
    | inl hfirstCut => exact hfirst.cut files left hpre hfirstCut
    | inr hrest =>
      obtain ⟨middle, hmiddle, hsecondCut⟩ := hrest
      obtain ⟨other, hother, hmid⟩ := hfirst.done files hpre
      rw [hmiddle] at hother
      obtain rfl := Option.some.inj hother
      exact hsecond.cut middle left hmid hsecondCut

/-- What depends on no target of the steps outlives them, whole or cut. -/
theorem Runs.of_done (hdone : ∀ files, pre files →
      ∃ after, runAll steps files = some after ∧ post after)
    (hkept : ∀ files left, pre files →
      (∀ name, (∀ step ∈ steps, name ≠ step.target) → left name = files name) → crash left) :
    Runs pre steps post crash where
  done := hdone
  cut files left hpre hcut := hkept files left hpre fun _ hname => hcut.frame hname

/-- A program that is started again after every cut, until it runs to its end. The program
may depend on the files it finds. -/
inductive Restarted (program : Files Name Content → List (Step Name Content) → Prop) :
    Files Name Content → Files Name Content → Prop
  | refl (files : Files Name Content) : Restarted program files files
  | again {files left after : Files Name Content} {steps : List (Step Name Content)}
      (hprogram : program files steps) (hcut : Cut steps files left)
      (hrest : Restarted program left after) : Restarted program files after

/-- An invariant that every cut of the recovery keeps survives any number of restarts. -/
theorem Restarted.keeps {program : Files Name Content → List (Step Name Content) → Prop}
    {files after : Files Name Content} (h : Restarted program files after)
    (hkeeps : ∀ files steps, mid files → program files steps →
      ∀ left, Cut steps files left → mid left)
    (hfiles : mid files) : mid after := by
  induction h with
  | refl => exact hfiles
  | again hprogram hcut _ ih => exact ih (hkeeps _ _ hfiles hprogram _ hcut)

end Crash
