import BeanKey.Learning.Files

/-! Which files decoding depends on, and when it succeeds. -/
namespace BeanKey.Learning
open BeanKey.Lattice Packing
open BeanKey.Dictionary (FloatFormat)

variable {format : FloatFormat} {directory first second : Directory}

/-- The node's entries are found in its shard, as many as its metadata block has. -/
def NodeReadable (format : FloatFormat) (directory : Directory) (node : Nat)
    (block : List MetadataElement) : Prop :=
  ∃ shard, directory (shardFile (node / shardSize)) = some shard ∧
    ∃ records, readEntries format shard node block = .ok records

def Loaded (directory : Directory) (loaded : Option (Nat × Bytes)) : Prop :=
  ∀ index shard, loaded = some (index, shard) → directory (shardFile index) = some shard

theorem readRequired_eq_ok {name : FileName} {bytes : Bytes} :
    readRequired directory name = .ok bytes ↔ directory name = some bytes := by
  rw [readRequired]
  cases directory name <;> simp

theorem loadShard_eq {loaded : Option (Nat × Bytes)} (h : Loaded directory loaded) (index : Nat) :
    loadShard directory loaded index = readRequired directory (shardFile index) := by
  cases loaded with
  | none => rfl
  | some pair =>
    by_cases heq : pair.1 = index
    · subst heq
      rw [loadShard, if_pos rfl, readRequired, h pair.1 pair.2 rfl]
    · rw [loadShard, if_neg heq]

theorem Loaded.next {index : Nat} {shard : Bytes}
    (h : directory (shardFile index) = some shard) : Loaded directory (some (index, shard)) := by
  intro other found heq
  obtain ⟨rfl, rfl⟩ := Prod.mk.inj (Option.some.inj heq)
  exact h

theorem loaded_none : Loaded directory none := fun _ _ heq => absurd heq (by simp)

/-- One node after the other: the records are read exactly when every node is readable. -/
theorem readRecords_ok_iff (format : FloatFormat) {loaded : Option (Nat × Bytes)}
    (hloaded : Loaded directory loaded)
    (node : Nat) (blocks : List (List MetadataElement)) :
    (∃ records, readRecords format directory node loaded blocks = .ok records) ↔
      ∀ index block, blocks[index]? = some block →
        NodeReadable format directory (node + index) block := by
  induction blocks generalizing node loaded with
  | nil => simp [readRecords]
  | cons head rest ih =>
    rw [readRecords, loadShard_eq hloaded]
    constructor
    · rintro ⟨records, hrecords⟩
      cases hshard : directory (shardFile (node / shardSize)) with
      | none => simp [readRequired, hshard, bind, Except.bind] at hrecords
      | some shard =>
        cases hentries : readEntries format shard node head with
        | error _ => simp [readRequired, hshard, hentries, bind, Except.bind] at hrecords
        | ok found =>
          cases hrest : readRecords format directory (node + 1) (some (node / shardSize, shard))
              rest with
          | error _ => simp [readRequired, hshard, hentries, hrest, bind, Except.bind] at hrecords
          | ok others =>
            have hothers := (ih (.next hshard) (node + 1)).mp ⟨others, hrest⟩
            intro index block hblock
            cases index with
            | zero =>
              obtain rfl : head = block := by simpa using hblock
              exact ⟨shard, hshard, found, hentries⟩
            | succ index =>
              rw [Nat.add_comm index, ← Nat.add_assoc]
              exact hothers index block (by simpa using hblock)
    · intro hall
      obtain ⟨shard, hshard, found, hentries⟩ := hall 0 head rfl
      rw [Nat.add_zero] at hshard hentries
      obtain ⟨others, hothers⟩ := (ih (.next hshard) (node + 1)).mpr fun index block hblock => by
        rw [Nat.add_assoc, Nat.add_comm 1]
        exact hall (index + 1) block (by simpa using hblock)
      exact ⟨found ++ others, by
        simp [readRequired, hshard, hentries, hothers, bind, Except.bind, pure, Except.pure]⟩

theorem readRecords_congr {node : Nat} {blocks : List (List MetadataElement)}
    (h : ∀ other, node ≤ other → other < node + blocks.length →
      first (shardFile (other / shardSize)) = second (shardFile (other / shardSize)))
    (loaded : Option (Nat × Bytes)) :
    readRecords format first node loaded blocks = readRecords format second node loaded blocks := by
  induction blocks generalizing node loaded with
  | nil => rfl
  | cons head rest ih =>
    have hshard : ∀ loaded, loadShard first loaded (node / shardSize) =
        loadShard second loaded (node / shardSize) := by
      intro loaded
      simp only [loadShard, readRequired, h node (Nat.le_refl _) (by simp)]
    have hrest : ∀ loaded, readRecords format first (node + 1) loaded rest =
        readRecords format second (node + 1) loaded rest := by
      refine ih ?_
      intro other hle hlt
      refine h other (Nat.le_of_succ_le hle) ?_
      rw [List.length_cons]
      omega
    simp only [readRecords, hshard, hrest]

/-! ### The whole directory -/

def MainFiles (directory : Directory) (blocks : List (List MetadataElement)) : Prop :=
  ∃ metadata louds characters, directory metadataFile = some metadata ∧
    directory loudsFile = some louds ∧ directory loudsCharsFile = some characters ∧
    readMetadata metadata louds characters = .ok blocks

theorem decodeDirectory_of_none (h : directory metadataFile = none) :
    decodeDirectory format directory = .ok [] := by
  rw [decodeDirectory, h]

theorem decodeDirectory_of_main {blocks : List (List MetadataElement)}
    (h : MainFiles directory blocks) :
    decodeDirectory format directory = readRecords format directory 0 none blocks := by
  obtain ⟨metadata, louds, characters, hmetadata, hlouds, hcharacters, hread⟩ := h
  rw [decodeDirectory, hmetadata]
  simp [readRequired, hlouds, hcharacters, hread, bind, Except.bind]

/-- Decoding succeeds when there is no metadata file, or the main files are consistent and
every node is readable. -/
theorem decodeDirectory_ok_iff :
    (∃ records, decodeDirectory format directory = .ok records) ↔
      directory metadataFile = none ∨ ∃ blocks, MainFiles directory blocks ∧
        ∀ node block, blocks[node]? = some block → NodeReadable format directory node block := by
  constructor
  · rintro ⟨records, hrecords⟩
    cases hmetadata : directory metadataFile with
    | none => exact .inl rfl
    | some metadata =>
      right
      rw [decodeDirectory, hmetadata] at hrecords
      cases hlouds : directory loudsFile with
      | none => simp [readRequired, hlouds, bind, Except.bind] at hrecords
      | some louds =>
        cases hcharacters : directory loudsCharsFile with
        | none => simp [readRequired, hlouds, hcharacters, bind, Except.bind] at hrecords
        | some characters =>
          cases hread : readMetadata metadata louds characters with
          | error _ =>
            simp [readRequired, hlouds, hcharacters, hread, bind, Except.bind] at hrecords
          | ok blocks =>
            refine ⟨blocks, ⟨metadata, louds, characters, hmetadata, hlouds, hcharacters, hread⟩,
              ?_⟩
            have hall := (readRecords_ok_iff format loaded_none 0 blocks).mp
              ⟨records, by simpa [readRequired, hlouds, hcharacters, hread, bind, Except.bind]
                using hrecords⟩
            simpa only [Nat.zero_add] using hall
  · intro h
    cases h with
    | inl hnone => exact ⟨[], decodeDirectory_of_none hnone⟩
    | inr hmain =>
      obtain ⟨blocks, hblocks, hall⟩ := hmain
      rw [decodeDirectory_of_main hblocks]
      exact (readRecords_ok_iff format loaded_none 0 blocks).mpr
        (by simpa only [Nat.zero_add] using hall)

theorem readBlocks_length {metadata : Bytes} {nodes cursor : Nat}
    {result : List (List MetadataElement) × Nat}
    (h : readBlocks metadata nodes cursor = .ok result) : result.1.length = nodes := by
  induction nodes generalizing cursor result with
  | zero =>
    obtain rfl := Except.ok.inj h
    rfl
  | succ nodes ih =>
    rw [readBlocks] at h
    cases hcount : metadata[cursor]? with
    | none => simp [hcount] at h
    | some count =>
      cases helements : readElements metadata count.toNat (cursor + 1) with
      | error _ => simp [hcount, helements, bind, Except.bind] at h
      | ok block =>
        cases hrest : readBlocks metadata nodes block.2 with
        | error _ => simp [hcount, helements, hrest, bind, Except.bind] at h
        | ok rest =>
          simp only [hcount, helements, hrest, bind, Except.bind, pure, Except.pure] at h
          obtain rfl := Except.ok.inj h
          simp [ih hrest]

theorem readMetadata_length {metadata louds characters : Bytes}
    {blocks : List (List MetadataElement)}
    (h : readMetadata metadata louds characters = .ok blocks) :
    blocks.length = characters.length := by
  rw [readMetadata] at h
  cases hparse : Dictionary.Louds.parse louds characters with
  | error _ => simp [hparse] at h
  | ok tree =>
    cases hcount : readArray 4 metadata 0 with
    | error _ => simp [hparse, hcount, bind, Except.bind] at h
    | ok nodeCount =>
      simp only [hparse, hcount, bind, Except.bind] at h
      by_cases hnodes : nodeCount ≠ characters.length ∨ nodeCount ≠ tree.nodeCount
      · rw [if_pos hnodes] at h
        exact absurd h (by simp)
      · rw [if_neg hnodes] at h
        push Not at hnodes
        cases hblocks : readBlocks metadata nodeCount 4 with
        | error _ => simp [hblocks] at h
        | ok result =>
          simp only [hblocks] at h
          by_cases hcursor : result.2 ≠ metadata.length
          · rw [if_pos hcursor] at h
            exact absurd h (by simp)
          · rw [if_neg hcursor] at h
            obtain rfl := Except.ok.inj h
            rw [readBlocks_length hblocks, hnodes.1]

def NeededShard (nodes index : Nat) : Prop := index * shardSize < nodes

theorem neededShard_of_lt {nodes node : Nat} (h : node < nodes) :
    NeededShard nodes (node / shardSize) :=
  (Nat.div_mul_le_self _ _).trans_lt h

/-- Directories with the same main files and needed shards decode alike. -/
theorem decodeDirectory_congr (hmetadata : first metadataFile = second metadataFile)
    (hlouds : first loudsFile = second loudsFile)
    (hcharacters : first loudsCharsFile = second loudsCharsFile)
    (hshards : ∀ characters, first loudsCharsFile = some characters →
      ∀ index, NeededShard characters.length index →
        first (shardFile index) = second (shardFile index)) :
    decodeDirectory format first = decodeDirectory format second := by
  have hloudsRead : readRequired second loudsFile = readRequired first loudsFile := by
    rw [readRequired, readRequired, hlouds]
  have hcharactersRead : readRequired second loudsCharsFile =
      readRequired first loudsCharsFile := by
    rw [readRequired, readRequired, hcharacters]
  rw [decodeDirectory, decodeDirectory, ← hmetadata, hloudsRead, hcharactersRead]
  cases first metadataFile with
  | none => rfl
  | some metadata =>
    cases readRequired first loudsFile with
    | error _ => rfl
    | ok louds =>
      cases hchars : readRequired first loudsCharsFile with
      | error _ => rfl
      | ok characters =>
        simp only [bind, Except.bind]
        cases hread : readMetadata metadata louds characters with
        | error _ => rfl
        | ok blocks =>
          refine readRecords_congr ?_ none
          intro node _ hlt
          rw [Nat.zero_add, readMetadata_length hread] at hlt
          exact hshards characters (readRequired_eq_ok.mp hchars) _ (neededShard_of_lt hlt)

end BeanKey.Learning
