import BeanKey.Learning.Atomic

/-! A reset deletes the memory files in the order of the listing. Which files are left decides
whether the next open succeeds. -/
namespace BeanKey.Learning
open BeanKey.Lattice Packing Crash
open BeanKey.Dictionary (FloatFormat)

variable {format : FloatFormat} {directory left after : Directory} {listing later : List FileName}

/-! ### When an open succeeds -/

def temporaries (directory : Directory) : Directory := fun name => directory (temporaryFile name)

def overlay (directory : Directory) : Directory :=
  fun name => (directory (temporaryFile name)).or (directory name)

def NodesReadable (format : FloatFormat) (directory : Directory)
    (blocks : List (List MetadataElement)) : Prop :=
  ∀ node block, blocks[node]? = some block → NodeReadable format directory node block

inductive Opens (format : FloatFormat) (directory : Directory) : Prop
  | cleared (hpause : directory pauseFile = none) (hmetadata : directory metadataFile = none)
  | live (hpause : directory pauseFile = none) {blocks : List (List MetadataElement)}
      (hmain : MainFiles directory blocks) (hnodes : NodesReadable format directory blocks)
  | prepared (hpause : (directory pauseFile).isSome) {blocks : List (List MetadataElement)}
      (hmain : MainFiles (temporaries directory) blocks)
      (hnodes : NodesReadable format (overlay directory) blocks)

theorem nodesReadable_congr {first second : Directory}
    (h : ∀ index, first (shardFile index) = second (shardFile index))
    (blocks : List (List MetadataElement)) :
    NodesReadable format first blocks ↔ NodesReadable format second blocks := by
  simp only [NodesReadable, NodeReadable, h]

theorem Recovered.mainFiles (h : Recovered directory after) (blocks : List (List MetadataElement)) :
    MainFiles after blocks ↔ MainFiles (temporaries directory) blocks := by
  simp only [MainFiles, temporaries, h.louds, h.characters, h.metadata]

theorem MainFiles.mainTemporaries {blocks : List (List MetadataElement)}
    (h : MainFiles (temporaries directory) blocks) : MainTemporaries directory := by
  obtain ⟨metadata, louds, characters, hmetadata, hlouds, hcharacters, -⟩ := h
  exact ⟨Option.isSome_iff_exists.mpr ⟨louds, hlouds⟩,
    Option.isSome_iff_exists.mpr ⟨characters, hcharacters⟩,
    Option.isSome_iff_exists.mpr ⟨metadata, hmetadata⟩⟩

theorem exists_openDirectory_iff :
    (∃ result, openDirectory format directory listing = some result) ↔
    ∃ after, runAll (recoverIfPaused directory listing) directory = some after ∧
      ∃ decoded, decodeDirectory format after = .ok decoded := by
  rw [openDirectory]
  cases hrun : runAll (recoverIfPaused directory listing) directory with
  | none => simp
  | some after =>
    cases hdecode : decodeDirectory format after with
    | error _ => simp [Except.toOption, hdecode]
    | ok decoded => simp [Except.toOption, hdecode]

theorem openDirectory_some_iff (hlisting : IsListing directory listing) :
    (∃ result, openDirectory format directory listing = some result) ↔ Opens format directory := by
  rw [exists_openDirectory_iff]
  cases hpause : directory pauseFile with
  | none =>
    have hrun : ∀ after, runAll (recoverIfPaused directory listing) directory = some after ↔
        directory = after := by
      intro after
      rw [runAll_recover_of_none hpause, Option.some.injEq]
    simp only [hrun, exists_eq_left', decodeDirectory_ok_iff]
    constructor
    · intro h
      cases h with
      | inl hnone => exact .cleared hpause hnone
      | inr hmain =>
        obtain ⟨blocks, hblocks, hnodes⟩ := hmain
        exact .live hpause hblocks hnodes
    · intro h
      cases h with
      | cleared _ hnone => exact .inl hnone
      | live _ hblocks hnodes => exact .inr ⟨_, hblocks, hnodes⟩
      | prepared hpaused _ _ => exact absurd hpaused (by simp [hpause])
  | some content =>
    have hpaused : (directory pauseFile).isSome := by rw [hpause]; rfl
    constructor
    · rintro ⟨after, hafter, hdecoded⟩
      obtain ⟨htemporaries, hrecovered⟩ := recovered_of_run hpaused hlisting hafter
      cases decodeDirectory_ok_iff.mp hdecoded with
      | inl hnone =>
        have hsome := htemporaries.metadata
        rw [← hrecovered.metadata, hnone] at hsome
        exact absurd hsome (by simp)
      | inr hmain =>
        obtain ⟨blocks, hblocks, hnodes⟩ := hmain
        exact .prepared hpaused ((hrecovered.mainFiles blocks).mp hblocks)
          ((nodesReadable_congr hrecovered.shard blocks).mp hnodes)
    · intro h
      cases h with
      | cleared hnone _ => exact absurd hnone (by simp [hpause])
      | live hnone _ _ => exact absurd hnone (by simp [hpause])
      | @prepared _ blocks hmain hnodes =>
        obtain ⟨after, hafter⟩ := recover_succeeds hmain.mainTemporaries hlisting
        obtain ⟨-, hrecovered⟩ := recovered_of_run hpaused hlisting hafter
        exact ⟨after, hafter, decodeDirectory_ok_iff.mpr (.inr ⟨blocks,
          (hrecovered.mainFiles blocks).mpr hmain,
          (nodesReadable_congr hrecovered.shard blocks).mpr hnodes⟩)⟩

/-! ### What a cut reset leaves -/

theorem cut_resetSteps_iff : Cut (resetSteps listing) directory left ↔
    ∃ count ≤ (resetNames listing).length,
      left = without directory ((resetNames listing).take count) := by
  rw [resetSteps]
  exact cut_removes_iff (resetNames listing) directory left

theorem runAll_resetSteps : runAll (resetSteps listing) directory =
    some (without directory (resetNames listing)) := by
  rw [resetSteps]
  exact runAll_removes (resetNames listing) directory

/-- The three main files, as `directory` names them, are not among the removed ones. -/
def MainKept (naming : FileName → FileName) (removed : List FileName) : Prop :=
  naming metadataFile ∉ removed ∧ naming loudsFile ∉ removed ∧ naming loudsCharsFile ∉ removed

/-- The removed files are not missed: marker and metadata are gone; or the marker is gone and
the files a store reads are there; or the marker is there, with the main temporary files and,
for every node, its temporary shard or else its own. -/
inductive ResetSafe (format : FloatFormat) (directory : Directory) (removed : List FileName) : Prop
  | cleared (hpause : pauseFile ∈ removed ∨ directory pauseFile = none)
      (hmetadata : metadataFile ∈ removed ∨ directory metadataFile = none)
  | live (hpause : pauseFile ∈ removed ∨ directory pauseFile = none)
      {blocks : List (List MetadataElement)} (hmain : MainFiles directory blocks)
      (hkept : MainKept id removed)
      (hnodes : ∀ node block, blocks[node]? = some block →
        shardFile (node / shardSize) ∉ removed ∧ NodeReadable format directory node block)
  | prepared (hpause : pauseFile ∉ removed ∧ (directory pauseFile).isSome)
      {blocks : List (List MetadataElement)} (hmain : MainFiles (temporaries directory) blocks)
      (hkept : MainKept temporaryFile removed)
      (hnodes : ∀ node block, blocks[node]? = some block →
        temporaryFile (shardFile (node / shardSize)) ∉ removed ∧
            NodeReadable format (temporaries directory) node block ∨
          (temporaryFile (shardFile (node / shardSize)) ∈ removed ∨
              temporaries directory (shardFile (node / shardSize)) = none) ∧
            shardFile (node / shardSize) ∉ removed ∧ NodeReadable format directory node block)

theorem mainFiles_remaining {removed : List FileName} {blocks : List (List MetadataElement)} :
    MainFiles (without directory removed) blocks ↔
      MainFiles directory blocks ∧ MainKept id removed := by
  simp only [MainFiles, MainKept, without_eq_some, id]
  constructor
  · rintro ⟨metadata, louds, characters, ⟨hm, hmetadata⟩, ⟨hl, hlouds⟩, ⟨hc, hcharacters⟩, hread⟩
    exact ⟨⟨metadata, louds, characters, hmetadata, hlouds, hcharacters, hread⟩, hm, hl, hc⟩
  · rintro ⟨⟨metadata, louds, characters, hmetadata, hlouds, hcharacters, hread⟩, hm, hl, hc⟩
    exact ⟨metadata, louds, characters, ⟨hm, hmetadata⟩, ⟨hl, hlouds⟩, ⟨hc, hcharacters⟩, hread⟩

theorem mainFiles_temporaries_remaining {removed : List FileName}
    {blocks : List (List MetadataElement)} :
    MainFiles (temporaries (without directory removed)) blocks ↔
      MainFiles (temporaries directory) blocks ∧ MainKept temporaryFile removed := by
  simp only [MainFiles, MainKept, temporaries, without_eq_some]
  constructor
  · rintro ⟨metadata, louds, characters, ⟨hm, hmetadata⟩, ⟨hl, hlouds⟩, ⟨hc, hcharacters⟩, hread⟩
    exact ⟨⟨metadata, louds, characters, hmetadata, hlouds, hcharacters, hread⟩, hm, hl, hc⟩
  · rintro ⟨⟨metadata, louds, characters, hmetadata, hlouds, hcharacters, hread⟩, hm, hl, hc⟩
    exact ⟨metadata, louds, characters, ⟨hm, hmetadata⟩, ⟨hl, hlouds⟩, ⟨hc, hcharacters⟩, hread⟩

theorem nodeReadable_remaining {removed : List FileName} {node : Nat}
    {block : List MetadataElement} : NodeReadable format (without directory removed) node block ↔
      shardFile (node / shardSize) ∉ removed ∧ NodeReadable format directory node block := by
  simp only [NodeReadable, without_eq_some]
  constructor
  · rintro ⟨shard, ⟨hkept, hshard⟩, hread⟩
    exact ⟨hkept, shard, hshard, hread⟩
  · rintro ⟨hkept, shard, hshard, hread⟩
    exact ⟨shard, ⟨hkept, hshard⟩, hread⟩

theorem nodeReadable_overlay_remaining {removed : List FileName} {node : Nat}
    {block : List MetadataElement} :
    NodeReadable format (overlay (without directory removed)) node block ↔
      temporaryFile (shardFile (node / shardSize)) ∉ removed ∧
          NodeReadable format (temporaries directory) node block ∨
        (temporaryFile (shardFile (node / shardSize)) ∈ removed ∨
            temporaries directory (shardFile (node / shardSize)) = none) ∧
          shardFile (node / shardSize) ∉ removed ∧ NodeReadable format directory node block := by
  simp only [NodeReadable, overlay, temporaries, Option.or_eq_some_iff, without_eq_some,
    without_eq_none]
  constructor
  · rintro ⟨shard, ⟨hkept, hshard⟩ | ⟨hgone, hkept, hshard⟩, hread⟩
    · exact .inl ⟨hkept, shard, hshard, hread⟩
    · exact .inr ⟨hgone, hkept, shard, hshard, hread⟩
  · rintro (⟨hkept, shard, hshard, hread⟩ | ⟨hgone, hkept, shard, hshard, hread⟩)
    · exact ⟨shard, .inl ⟨hkept, hshard⟩, hread⟩
    · exact ⟨shard, .inr ⟨hgone, hkept, hshard⟩, hread⟩

theorem opens_remaining_iff {removed : List FileName} :
    Opens format (without directory removed) ↔ ResetSafe format directory removed := by
  constructor
  · intro h
    cases h with
    | cleared hpause hmetadata =>
      exact .cleared (without_eq_none.mp hpause) (without_eq_none.mp hmetadata)
    | live hpause hmain hnodes =>
      obtain ⟨hmain, hkept⟩ := mainFiles_remaining.mp hmain
      exact .live (without_eq_none.mp hpause) hmain hkept fun node block hblock =>
        nodeReadable_remaining.mp (hnodes node block hblock)
    | prepared hpause hmain hnodes =>
      obtain ⟨hmain, hkept⟩ := mainFiles_temporaries_remaining.mp hmain
      obtain ⟨content, hcontent⟩ := Option.isSome_iff_exists.mp hpause
      obtain ⟨hpauseKept, hpaused⟩ := without_eq_some.mp hcontent
      exact .prepared ⟨hpauseKept, by rw [hpaused]; rfl⟩ hmain hkept fun node block hblock =>
        nodeReadable_overlay_remaining.mp (hnodes node block hblock)
  · intro h
    cases h with
    | cleared hpause hmetadata =>
      exact .cleared (without_eq_none.mpr hpause) (without_eq_none.mpr hmetadata)
    | live hpause hmain hkept hnodes =>
      exact .live (without_eq_none.mpr hpause) (mainFiles_remaining.mpr ⟨hmain, hkept⟩)
        fun node block hblock => nodeReadable_remaining.mpr (hnodes node block hblock)
    | prepared hpause hmain hkept hnodes =>
      obtain ⟨content, hcontent⟩ := Option.isSome_iff_exists.mp hpause.2
      exact .prepared (Option.isSome_iff_exists.mpr ⟨content, without_eq_some.mpr
          ⟨hpause.1, hcontent⟩⟩) (mainFiles_temporaries_remaining.mpr ⟨hmain, hkept⟩)
        fun node block hblock => nodeReadable_overlay_remaining.mpr (hnodes node block hblock)

/-! ### Interrupted resets -/

/-- Wherever the reset is interrupted, the next open succeeds; after the whole reset it finds
no records. -/
def ResetOpens (format : FloatFormat) (directory : Directory) (listing : List FileName) : Prop :=
  (∀ left, Cut (resetSteps listing) directory left → ∀ later, IsListing left later →
      ∃ result, openDirectory format left later = some result) ∧
    ∀ after, runAll (resetSteps listing) directory = some after → ∀ later, IsListing after later →
      ∃ recovered, openDirectory format after later = some (recovered, [])

/-- Every file of the directory that a store reads is deleted after the metadata file. -/
def MetadataFirst (directory : Directory) (names : List FileName) : Prop :=
  ∀ blocks, MainFiles directory blocks →
    names.idxOf metadataFile < names.idxOf loudsFile ∧
      names.idxOf metadataFile < names.idxOf loudsCharsFile ∧
      ∀ node < blocks.length,
        names.idxOf metadataFile < names.idxOf (shardFile (node / shardSize))

theorem isMemoryFile_of_suffix {suffix name : FileName} (hsuffix : suffix ∈ memorySuffixes)
    (h : suffix <:+ name) : isMemoryFile name := by
  rw [isMemoryFile, Bool.or_eq_true]
  exact .inr (List.any_eq_true.mpr ⟨suffix, hsuffix, List.isSuffixOf_iff_suffix.mpr h⟩)

theorem IsMemory.isMemoryFile {name : FileName} (h : IsMemory name) : isMemoryFile name := by
  cases h with
  | louds => decide
  | characters => decide
  | metadata => decide
  | shard index => exact isMemoryFile_of_suffix (by decide) (shardFile_suffix index)

theorem mem_resetNames (hlisting : IsListing directory listing) {name : FileName}
    (hname : isMemoryFile name) (hsome : (directory name).isSome) : name ∈ resetNames listing :=
  List.mem_filter.mpr ⟨(hlisting.2 name).mpr hsome, hname⟩

theorem remaining_resetNames (hlisting : IsListing directory listing) {name : FileName}
    (hname : isMemoryFile name) : without directory (resetNames listing) name = none := by
  rw [without_eq_none]
  cases hsome : directory name with
  | none => exact .inr rfl
  | some content => exact .inl (mem_resetNames hlisting hname (by rw [hsome]; rfl))

theorem exists_listing_remaining (hlisting : IsListing directory listing) (count : Nat) :
    ∃ later, IsListing (without directory ((resetNames listing).take count)) later := by
  by_cases hle : count ≤ (resetNames listing).length
  · exact exists_listing_of_cut (cut_resetSteps_iff.mpr ⟨count, hle, rfl⟩) ⟨listing, hlisting⟩
  · have htake : (resetNames listing).take count =
        (resetNames listing).take (resetNames listing).length := by
      rw [List.take_length, List.take_of_length_le (Nat.le_of_not_le hle)]
    rw [htake]
    exact exists_listing_of_cut (cut_resetSteps_iff.mpr ⟨_, Nat.le_refl _, rfl⟩) ⟨listing, hlisting⟩

/-- After the whole reset there is nothing to recover and nothing to decode. -/
theorem openDirectory_after_reset (hlisting : IsListing directory listing) (later : List FileName) :
    openDirectory format (without directory (resetNames listing)) later =
      some (without directory (resetNames listing), []) := by
  have hpause : without directory (resetNames listing) pauseFile = none :=
    remaining_resetNames hlisting (by decide)
  have hmetadata : without directory (resetNames listing) metadataFile = none :=
    remaining_resetNames hlisting IsMemory.metadata.isMemoryFile
  rw [openDirectory, runAll_recover_of_none hpause]
  simp [decodeDirectory_of_none hmetadata, Except.toOption]

theorem resetOpens_iff (hlisting : IsListing directory listing) :
    ResetOpens format directory listing ↔ ∀ count ≤ (resetNames listing).length,
      ResetSafe format directory ((resetNames listing).take count) := by
  constructor
  · intro h count hcount
    obtain ⟨later, hlater⟩ := exists_listing_remaining hlisting count
    have hopen := h.1 _ (cut_resetSteps_iff.mpr ⟨count, hcount, rfl⟩) later hlater
    exact opens_remaining_iff.mp ((openDirectory_some_iff hlater).mp hopen)
  · intro h
    constructor
    · intro left hcut later hlater
      obtain ⟨count, hcount, rfl⟩ := cut_resetSteps_iff.mp hcut
      exact (openDirectory_some_iff hlater).mpr (opens_remaining_iff.mpr (h count hcount))
    · intro after hafter later _
      rw [runAll_resetSteps] at hafter
      obtain rfl := Option.some.inj hafter
      exact ⟨_, openDirectory_after_reset hlisting later⟩

theorem MainFiles.unique {first second : List (List MetadataElement)}
    (hfirst : MainFiles directory first) (hsecond : MainFiles directory second) :
    first = second := by
  obtain ⟨metadata, louds, characters, hmetadata, hlouds, hcharacters, hread⟩ := hfirst
  obtain ⟨metadata', louds', characters', hmetadata', hlouds', hcharacters', hread'⟩ := hsecond
  obtain rfl := Option.some.inj (hmetadata.symm.trans hmetadata')
  obtain rfl := Option.some.inj (hlouds.symm.trans hlouds')
  obtain rfl := Option.some.inj (hcharacters.symm.trans hcharacters')
  exact Except.ok.inj (hread.symm.trans hread')

/-- A file that is missed as long as the metadata file is there is deleted after it. -/
theorem metadata_before {names : List FileName} {name : FileName} (hin : name ∈ names)
    (hmetadata : metadataFile ∈ names) (hne : name ≠ metadataFile)
    (hmissed : ∀ count ≤ names.length, metadataFile ∉ names.take count → name ∉ names.take count) :
    names.idxOf metadataFile < names.idxOf name := by
  by_contra hle
  have hlength : names.idxOf name < names.length := List.idxOf_lt_length_iff.mpr hin
  have hapart : names.idxOf name ≠ names.idxOf metadataFile := fun heq =>
    hne ((List.idxOf_inj hin).mp heq)
  refine hmissed (names.idxOf name + 1) hlength ?_ ?_
  · rw [List.mem_take_iff_idxOf_lt hmetadata]
    omega
  · rw [List.mem_take_iff_idxOf_lt hin]
    exact Nat.lt_succ_self _

theorem not_mem_take_of_before {names : List FileName} {name : FileName} {count : Nat}
    (hmetadata : metadataFile ∈ names) (hbefore : names.idxOf metadataFile < names.idxOf name)
    (hkept : metadataFile ∉ names.take count) : name ∉ names.take count := by
  intro hin
  rw [List.mem_take_iff_idxOf_lt (List.mem_of_mem_take hin)] at hin
  rw [List.mem_take_iff_idxOf_lt hmetadata] at hkept
  omega

/-- Deleting the metadata file first is safe in an unpaused directory. -/
theorem resetSafe_of_metadataFirst (hlisting : IsListing directory listing)
    (hpause : directory pauseFile = none) (hopens : Opens format directory)
    (hfirst : MetadataFirst directory (resetNames listing)) (count : Nat) :
    ResetSafe format directory ((resetNames listing).take count) := by
  cases hopens with
  | cleared _ hnone => exact .cleared (.inr hpause) (.inr hnone)
  | prepared hpaused _ _ => exact absurd hpaused (by simp [hpause])
  | @live _ blocks hmain hnodes =>
    by_cases hgone : metadataFile ∈ (resetNames listing).take count
    · exact .cleared (.inr hpause) (.inl hgone)
    · obtain ⟨hlouds, hcharacters, hshards⟩ := hfirst blocks hmain
      have hmetadata : metadataFile ∈ resetNames listing := by
        obtain ⟨metadata, -, -, hsome, -⟩ := hmain
        exact mem_resetNames hlisting IsMemory.metadata.isMemoryFile (by rw [hsome]; rfl)
      refine .live (.inr hpause) hmain ⟨hgone, not_mem_take_of_before hmetadata hlouds hgone,
        not_mem_take_of_before hmetadata hcharacters hgone⟩ ?_
      intro node block hblock
      have hnode := (List.getElem?_eq_some_iff.mp hblock).1
      exact ⟨not_mem_take_of_before hmetadata (hshards node hnode) hgone,
        hnodes node block hblock⟩

/-- A reset that is safe at every point of an unpaused directory deletes the metadata first. -/
theorem metadataFirst_of_resetSafe (hlisting : IsListing directory listing)
    (hpause : directory pauseFile = none) (hopens : Opens format directory)
    (hsafe : ∀ count ≤ (resetNames listing).length,
      ResetSafe format directory ((resetNames listing).take count)) :
    MetadataFirst directory (resetNames listing) := by
  intro blocks hmain
  have hnodes : NodesReadable format directory blocks := by
    cases hopens with
    | cleared _ hnone =>
      obtain ⟨metadata, -, -, hsome, -⟩ := hmain
      exact absurd hsome (by simp [hnone])
    | prepared hpaused _ _ => exact absurd hpaused (by simp [hpause])
    | live _ hother hnodes => exact (hmain.unique hother) ▸ hnodes
  obtain ⟨metadata, louds, characters, hmetadata, hlouds, hcharacters, -⟩ := id hmain
  have hin : ∀ {name bytes}, IsMemory name → directory name = some bytes →
      name ∈ resetNames listing := fun hname hsome =>
    mem_resetNames hlisting hname.isMemoryFile (by rw [hsome]; rfl)
  -- Without the metadata file among the removed ones only the live case is left.
  have hlive : ∀ count ≤ (resetNames listing).length,
      metadataFile ∉ (resetNames listing).take count →
      MainKept id ((resetNames listing).take count) ∧ ∀ node block, blocks[node]? = some block →
        shardFile (node / shardSize) ∉ (resetNames listing).take count := by
    intro count hcount hkept
    cases hsafe count hcount with
    | cleared _ hgone =>
      cases hgone with
      | inl hremoved => exact absurd hremoved hkept
      | inr hnone => exact absurd hmetadata (by simp [hnone])
    | live _ hother hmainKept hshards =>
      obtain rfl := hmain.unique hother
      exact ⟨hmainKept, fun node block hblock => (hshards node block hblock).1⟩
    | prepared hpaused _ _ _ => exact absurd hpaused.2 (by simp [hpause])
  refine ⟨?_, ?_, ?_⟩
  · exact metadata_before (hin .louds hlouds) (hin .metadata hmetadata) (by decide)
      fun count hcount hkept => (hlive count hcount hkept).1.2.1
  · exact metadata_before (hin .characters hcharacters) (hin .metadata hmetadata) (by decide)
      fun count hcount hkept => (hlive count hcount hkept).1.2.2
  · intro node hnode
    have hblock := List.getElem?_eq_getElem hnode
    obtain ⟨shard, hshard, -⟩ := hnodes node _ hblock
    exact metadata_before (hin (.shard _) hshard) (hin .metadata hmetadata)
      (shardFile_ne (by decide) _).symm
      fun count hcount hkept => (hlive count hcount hkept).2 node _ hblock

/-- Every interruption of a reset leaves a directory that opens exactly when no file is missed
at any point of it; in an unpaused directory, when the metadata file goes first. -/
theorem reset_opens_iff (format : FloatFormat) {directory : Directory} {listing : List FileName}
    (hlisting : IsListing directory listing)
    (hopens : ∃ result, openDirectory format directory listing = some result) :
    (ResetOpens format directory listing ↔ ∀ count ≤ (resetNames listing).length,
        ResetSafe format directory ((resetNames listing).take count)) ∧
      (directory pauseFile = none →
        (ResetOpens format directory listing ↔ MetadataFirst directory (resetNames listing))) :=
  have hsafe : ResetOpens format directory listing ↔ _ := resetOpens_iff hlisting
  have hopen := (openDirectory_some_iff hlisting).mp hopens
  ⟨hsafe, fun hpause => hsafe.trans
    ⟨metadataFirst_of_resetSafe hlisting hpause hopen, fun hfirst count _ =>
      resetSafe_of_metadataFirst hlisting hpause hopen hfirst count⟩⟩

/-! ### A memory whose topology file is listed first -/

theorem fits_firstCommit : (firstCommit.encoded .kana sampleFormat).Fits := by
  rw [encoded_firstCommit]
  exact ⟨by decide +kernel, by decide +kernel⟩

theorem exists_published : ∃ directory listing,
    Published (firstCommit.encoded .kana sampleFormat) directory ∧ IsListing directory listing := by
  obtain ⟨after, hrun, hpublished⟩ := runAll_saveSteps (firstCommit.encoded .kana sampleFormat)
    fun _ => none
  obtain ⟨listing, hlisting⟩ := exists_listing_of_cut (cut_of_runAll hrun) ⟨[], isListing_empty⟩
  exact ⟨after, listing, hpublished, hlisting⟩

theorem opens_published {directory : Directory}
    (h : Published (firstCommit.encoded .kana sampleFormat) directory) (listing : List FileName) :
    ∃ result, openDirectory sampleFormat directory listing = some result := by
  rw [exists_openDirectory_iff]
  refine ⟨directory, runAll_recover_of_none h.unpaused listing, ?_⟩
  have hholds := h.holds
  have hfits := fits_firstCommit
  rw [encoded_firstCommit] at hholds hfits
  exact decodeDirectory_encodeFiles hholds hfits

theorem reset_opens_published : ∃ directory listing, directory pauseFile = none ∧
    (ResetOpens sampleFormat directory listing ↔ ∀ count ≤ (resetNames listing).length,
        ResetSafe sampleFormat directory ((resetNames listing).take count)) ∧
      (directory pauseFile = none → (ResetOpens sampleFormat directory listing ↔
        MetadataFirst directory (resetNames listing))) := by
  obtain ⟨directory, listing, hpublished, hlisting⟩ := exists_published
  exact ⟨directory, listing, hpublished.unpaused,
    reset_opens_iff sampleFormat hlisting (opens_published hpublished listing)⟩

theorem IsListing.first (h : IsListing directory listing) {name : FileName}
    (hname : name ∈ listing) : IsListing directory (name :: listing.filter (· ≠ name)) := by
  refine ⟨List.nodup_cons.mpr ⟨by simp, h.1.filter _⟩, ?_⟩
  intro other
  rw [← h.2 other]
  by_cases heq : other = name
  · simp [heq, hname]
  · simp [heq]

/-- Interrupted after the topology file, the reset leaves a memory that does not open. -/
theorem reset_leaves_unreadable :
    ¬∀ (format : FloatFormat) (directory : Directory) (listing : List FileName),
      IsListing directory listing →
      (∃ result, openDirectory format directory listing = some result) →
      ResetOpens format directory listing := by
  intro hall
  obtain ⟨directory, listing, hpublished, hlisting⟩ := exists_published
  have hlouds : loudsFile ∈ listing := by
    rw [hlisting.2, hpublished.holds.louds]
    rfl
  have hfirst := hlisting.first hlouds
  have hopens := opens_published hpublished (loudsFile :: listing.filter (· ≠ loudsFile))
  have hopen := (openDirectory_some_iff hfirst).mp hopens
  have horder := metadataFirst_of_resetSafe hfirst hpublished.unpaused hopen
    ((resetOpens_iff hfirst).mp (hall sampleFormat directory _ hfirst hopens))
  have hzero : (resetNames (loudsFile :: listing.filter (· ≠ loudsFile))).idxOf loudsFile = 0 := by
    rw [resetNames, List.filter_cons_of_pos (IsMemory.louds.isMemoryFile), List.idxOf_cons_self]
  cases hopen with
  | cleared _ hnone => exact absurd hnone (by rw [hpublished.holds.metadata]; simp)
  | prepared hpaused _ _ => exact absurd hpaused (by rw [hpublished.unpaused]; simp)
  | live _ hmain _ =>
    have hlt := (horder _ hmain).1
    rw [hzero] at hlt
    exact absurd hlt (Nat.not_lt_zero _)

end BeanKey.Learning
