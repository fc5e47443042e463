import BeanKey.Learning.Save

/-! What an open makes of a directory with the marker: the temporary files take the place of
the others. -/
namespace BeanKey.Learning
open BeanKey.Lattice Packing Crash
open BeanKey.Dictionary (CharacterIdMap FloatFormat)

variable {files : EncodedMemory} {directory left after : Directory} {listing : List FileName}

def recoveredNames (listing : List FileName) : List FileName :=
  [loudsCharsFile, metadataFile] ++
    ((listing.filter isTemporaryShard).mergeSort fun first second => decide (first ≤ second)).map
      trimTemporary ++ [loudsFile]

theorem recoverSteps_eq (listing : List FileName) : recoverSteps listing =
    (recoveredNames listing).map restoreTemporary ++ [.remove pauseFile] := by
  simp [recoverSteps, recoveredNames, Function.comp_def]

theorem mem_recoveredNames {name : FileName} :
    name ∈ recoveredNames listing ↔ name = loudsCharsFile ∨ name = metadataFile ∨
      name = loudsFile ∨ ∃ temporary ∈ listing, isTemporaryShard temporary ∧
        trimTemporary temporary = name := by
  simp only [recoveredNames, List.mem_append, List.mem_cons, List.not_mem_nil, or_false,
    List.mem_map, List.mem_mergeSort, List.mem_filter]
  constructor
  · rintro (((h | h) | ⟨temporary, ⟨hin, hshard⟩, h⟩) | h)
    · exact .inl h
    · exact .inr (.inl h)
    · exact .inr (.inr (.inr ⟨temporary, hin, hshard, h⟩))
    · exact .inr (.inr (.inl h))
  · rintro (h | h | h | ⟨temporary, hin, hshard, h⟩)
    · exact .inl (.inl (.inl h))
    · exact .inl (.inl (.inr h))
    · exact .inr h
    · exact .inl (.inr ⟨temporary, ⟨hin, hshard⟩, h⟩)

theorem isLive_of_mem_recoveredNames {name : FileName}
    (h : name ∈ recoveredNames listing) : IsLive name := by
  obtain rfl | rfl | rfl | ⟨temporary, -, hshard, rfl⟩ := mem_recoveredNames.mp h
  · exact IsMemory.characters.isLive
  · exact IsMemory.metadata.isLive
  · exact IsMemory.louds.isLive
  · have hsuffix := (temporaryFile_trimTemporary hshard).2
    exact ⟨ne_pauseFile_of_shard hsuffix, ne_temporaryFile_of_shard hsuffix⟩

/-- The recovery of a prepared save, whatever else is in the directory. -/
theorem recover_runs (h : Prepared files directory)
    (hlisting : IsListing directory listing) :
    Runs (· = directory) (recoverIfPaused directory listing) (Published files)
      (fun left => Prepared files left ∨ Published files left) := by
  have hcover : ∀ pair ∈ memoryFiles files, pair.1 ∈ recoveredNames listing := by
    intro pair hpair
    have hpresent : temporaryFile pair.1 ∈ listing := by
      rw [hlisting.2, h.temporaries pair hpair]
      rfl
    obtain rfl | rfl | rfl | ⟨index, shard, -, rfl⟩ := mem_memoryFiles.mp hpair
    · exact mem_recoveredNames.mpr (.inr (.inr (.inl rfl)))
    · exact mem_recoveredNames.mpr (.inl rfl)
    · exact mem_recoveredNames.mpr (.inr (.inl rfl))
    · exact mem_recoveredNames.mpr (.inr (.inr (.inr ⟨_, hpresent,
        isTemporaryShard_shardFile index, trimTemporary_shardFile index⟩)))
  have hsources : ∀ name ∈ recoveredNames listing, (directory (temporaryFile name)).isSome := by
    intro name hname
    obtain hmain | hmain | hmain | ⟨temporary, hin, hshard, rfl⟩ := mem_recoveredNames.mp hname
    · rw [hmain, h.temporaries _ (mem_memoryFiles.mpr (.inr (.inl rfl)))]
      rfl
    · rw [hmain, h.temporaries _ (mem_memoryFiles.mpr (.inr (.inr (.inl rfl))))]
      rfl
    · rw [hmain, h.temporaries _ (mem_memoryFiles.mpr (.inl rfl))]
      rfl
    · rw [(temporaryFile_trimTemporary hshard).1]
      exact (hlisting.2 temporary).mp hin
  have hruns := publish_runs (fun _ => isLive_of_mem_recoveredNames) hcover
  rw [recoverIfPaused, if_pos h.paused, recoverSteps_eq]
  refine ⟨?_, ?_⟩
  · rintro _ rfl
    exact hruns.done _ ⟨h, hsources⟩
  · rintro _ left rfl hcut
    exact hruns.cut _ left ⟨h, hsources⟩ hcut

theorem recoverIfPaused_of_none (h : directory pauseFile = none) (listing : List FileName) :
    recoverIfPaused directory listing = [] := by
  rw [recoverIfPaused, h]
  rfl

theorem runAll_recover_of_none (h : directory pauseFile = none) (listing : List FileName) :
    runAll (recoverIfPaused directory listing) directory = some directory := by
  rw [recoverIfPaused_of_none h]
  rfl

/-! ### The recovered directory -/

/-- The main temporary files, without which the recovery fails. -/
structure MainTemporaries (directory : Directory) : Prop where
  louds : (directory (temporaryFile loudsFile)).isSome
  characters : (directory (temporaryFile loudsCharsFile)).isSome
  metadata : (directory (temporaryFile metadataFile)).isSome

/-- The main files come from their temporary copies, the shards where there is one. -/
structure Recovered (directory after : Directory) : Prop where
  unpaused : after pauseFile = none
  louds : after loudsFile = directory (temporaryFile loudsFile)
  characters : after loudsCharsFile = directory (temporaryFile loudsCharsFile)
  metadata : after metadataFile = directory (temporaryFile metadataFile)
  shard : ∀ index, after (shardFile index) =
    (directory (temporaryFile (shardFile index))).or (directory (shardFile index))

theorem mainTemporaries_iff (hlisting : IsListing directory listing) :
    MainTemporaries directory ↔
      ∀ name ∈ recoveredNames listing, (directory (temporaryFile name)).isSome := by
  constructor
  · intro h name hname
    obtain rfl | rfl | rfl | ⟨temporary, hin, hshard, rfl⟩ := mem_recoveredNames.mp hname
    · exact h.characters
    · exact h.metadata
    · exact h.louds
    · rw [(temporaryFile_trimTemporary hshard).1]
      exact (hlisting.2 temporary).mp hin
  · intro h
    exact ⟨h _ (mem_recoveredNames.mpr (.inr (.inr (.inl rfl)))),
      h _ (mem_recoveredNames.mpr (.inl rfl)), h _ (mem_recoveredNames.mpr (.inr (.inl rfl)))⟩

theorem shardFile_mem_recoveredNames (hlisting : IsListing directory listing) (index : Nat) :
    shardFile index ∈ recoveredNames listing ↔
      (directory (temporaryFile (shardFile index))).isSome := by
  rw [mem_recoveredNames]
  constructor
  · rintro (h | h | h | ⟨temporary, hin, hshard, h⟩)
    · exact absurd h.symm (shardFile_ne (by decide) index)
    · exact absurd h.symm (shardFile_ne (by decide) index)
    · exact absurd h.symm (shardFile_ne (by decide) index)
    · rw [← h, (temporaryFile_trimTemporary hshard).1]
      exact (hlisting.2 temporary).mp hin
  · intro h
    exact .inr (.inr (.inr ⟨_, (hlisting.2 _).mpr h, isTemporaryShard_shardFile index,
      trimTemporary_shardFile index⟩))

/-- A recovery that succeeds had the main temporary files, and leaves the recovered ones. -/
theorem recovered_of_run (hpaused : (directory pauseFile).isSome)
    (hlisting : IsListing directory listing)
    (hafter : runAll (recoverIfPaused directory listing) directory = some after) :
    MainTemporaries directory ∧ Recovered directory after := by
  have hlive : ∀ name ∈ recoveredNames listing, IsLive name := fun _ => isLive_of_mem_recoveredNames
  rw [recoverIfPaused, if_pos hpaused, recoverSteps_eq, runAll_append] at hafter
  obtain ⟨middle, hmiddle, hremove⟩ := Option.bind_eq_some_iff.mp hafter
  have hsources := isSome_of_runAll_restore hlive hmiddle
  obtain ⟨other, hother, hcopied⟩ := runAll_restore hlive hsources
  obtain rfl := Option.some.inj (hmiddle.symm.trans hother)
  obtain rfl : Function.update middle pauseFile none = after := Option.some.inj hremove
  have hmain := (mainTemporaries_iff hlisting).mpr hsources
  have hcopy : ∀ name ∈ recoveredNames listing,
      Function.update middle pauseFile none name = directory (temporaryFile name) := by
    intro name hname
    rw [Function.update_of_ne (hlive name hname).1, hcopied name hname]
  refine ⟨hmain, Function.update_self _ _ _, ?_, ?_, ?_, ?_⟩
  · exact hcopy _ (mem_recoveredNames.mpr (.inr (.inr (.inl rfl))))
  · exact hcopy _ (mem_recoveredNames.mpr (.inl rfl))
  · exact hcopy _ (mem_recoveredNames.mpr (.inr (.inl rfl)))
  · intro index
    cases htemporary : directory (temporaryFile (shardFile index)) with
    | some bytes =>
      have hin := (shardFile_mem_recoveredNames hlisting index).mpr (by rw [htemporary]; rfl)
      rw [hcopy _ hin, htemporary]
      rfl
    | none =>
      have hout : shardFile index ∉ recoveredNames listing := by
        rw [shardFile_mem_recoveredNames hlisting index, htemporary]
        exact Bool.false_ne_true
      rw [Function.update_of_ne (IsMemory.shard index).ne_pauseFile, Option.none_or]
      refine runAll_frame hmiddle ?_
      intro step hstep heq
      obtain ⟨name, hname, rfl⟩ := List.mem_map.mp hstep
      exact hout (heq ▸ hname)

/-- The main temporary files are all a recovery needs. -/
theorem recover_succeeds (h : MainTemporaries directory)
    (hlisting : IsListing directory listing) :
    ∃ after, runAll (recoverIfPaused directory listing) directory = some after := by
  by_cases hpaused : (directory pauseFile).isSome
  · obtain ⟨middle, hmiddle, -⟩ := runAll_restore (fun _ => isLive_of_mem_recoveredNames)
      ((mainTemporaries_iff hlisting).mp h)
    rw [recoverIfPaused, if_pos hpaused, recoverSteps_eq, runAll_append, hmiddle]
    exact ⟨_, rfl⟩
  · rw [recoverIfPaused, if_neg hpaused]
    exact ⟨directory, rfl⟩

end BeanKey.Learning
