import BeanKey.Learning.Directory
import BeanKey.Learning.Decodes

/-! What a directory holds before, during and after a save. The temporary files are written
first; the marker says that they are complete; publishing copies them. -/
namespace BeanKey.Learning
open BeanKey.Lattice Packing Crash
open BeanKey.Dictionary (CharacterIdMap FloatFormat)

variable {files : EncodedMemory} {before directory left after : Directory}

theorem map_mapIdx {α β γ : Type} (f : β → γ) (g : Nat → α → β) (values : List α) :
    (values.mapIdx g).map f = values.mapIdx fun index value => f (g index value) :=
  List.ext_getElem (by simp) fun _ _ _ => by simp

def memoryFiles (files : EncodedMemory) : List (FileName × Bytes) :=
  (loudsFile, files.louds) :: (loudsCharsFile, files.characters) ::
    (metadataFile, files.metadata) :: files.shards.mapIdx fun index shard =>
      (shardFile index, shard)

theorem mem_memoryFiles {pair : FileName × Bytes} : pair ∈ memoryFiles files ↔
    pair = (loudsFile, files.louds) ∨ pair = (loudsCharsFile, files.characters) ∨
      pair = (metadataFile, files.metadata) ∨
      ∃ index shard, files.shards[index]? = some shard ∧ pair = (shardFile index, shard) := by
  rw [memoryFiles, List.mem_cons, List.mem_cons, List.mem_cons, List.mem_mapIdx]
  refine or_congr_right (or_congr_right (or_congr_right ?_))
  constructor
  · rintro ⟨index, hindex, rfl⟩
    exact ⟨index, _, List.getElem?_eq_getElem hindex, rfl⟩
  · rintro ⟨index, shard, hshard, rfl⟩
    obtain ⟨hindex, rfl⟩ := List.getElem?_eq_some_iff.mp hshard
    exact ⟨index, hindex, rfl⟩

theorem isMemory_of_mem {pair : FileName × Bytes} (h : pair ∈ memoryFiles files) :
    IsMemory pair.1 := by
  obtain rfl | rfl | rfl | ⟨index, shard, -, rfl⟩ := mem_memoryFiles.mp h
  · exact .louds
  · exact .characters
  · exact .metadata
  · exact .shard index

theorem shardFile_ne {name : FileName} (h : ¬".loudstxt3".toList <:+ name) (index : Nat) :
    name ≠ shardFile index :=
  fun heq => h (heq ▸ shardFile_suffix index)

theorem memoryFiles_names_nodup (files : EncodedMemory) :
    ((memoryFiles files).map Prod.fst).Nodup := by
  have hmap : (memoryFiles files).map Prod.fst =
      loudsFile :: loudsCharsFile :: metadataFile :: (List.range files.shards.length).map
        shardFile := by
    simp only [memoryFiles, List.map_cons, map_mapIdx]
    congr 3
    refine List.ext_getElem (by simp) ?_
    intro index _ _
    simp
  rw [hmap]
  have hshard : ∀ name, ¬".loudstxt3".toList <:+ name →
      name ∉ (List.range files.shards.length).map shardFile := by
    intro name hname hin
    obtain ⟨index, -, heq⟩ := List.mem_map.mp hin
    exact shardFile_ne hname index heq.symm
  have hlouds := hshard loudsFile (by decide)
  have hcharacters := hshard loudsCharsFile (by decide)
  have hmetadata := hshard metadataFile (by decide)
  refine List.nodup_cons.mpr ⟨?_, List.nodup_cons.mpr ⟨?_, List.nodup_cons.mpr ⟨hmetadata, ?_⟩⟩⟩
  · simp only [List.mem_cons, hlouds, or_false, not_or]
    exact ⟨by decide, by decide⟩
  · simp only [List.mem_cons, hcharacters, or_false]
    decide
  · exact List.nodup_range.map fun _ _ => shardFile_injective

/-! ### Directory states -/

def TemporariesHold (directory : Directory) (files : EncodedMemory) : Prop :=
  ∀ pair ∈ memoryFiles files, directory (temporaryFile pair.1) = some pair.2

structure Prepared (files : EncodedMemory) (directory : Directory) : Prop where
  paused : (directory pauseFile).isSome
  temporaries : TemporariesHold directory files

structure Published (files : EncodedMemory) (directory : Directory) : Prop where
  unpaused : directory pauseFile = none
  holds : Holds directory files

/-- Nothing but temporary files differs. -/
def SameMemory (before directory : Directory) : Prop :=
  ∀ name, (∀ other, name ≠ temporaryFile other) → directory name = before name

theorem holds_iff : Holds directory files ↔
    ∀ pair ∈ memoryFiles files, directory pair.1 = some pair.2 := by
  constructor
  · intro h pair hpair
    obtain rfl | rfl | rfl | ⟨index, shard, hshard, rfl⟩ := mem_memoryFiles.mp hpair
    · exact h.louds
    · exact h.characters
    · exact h.metadata
    · exact h.shards index shard hshard
  · intro h
    refine ⟨?_, ?_, ?_, ?_⟩
    · exact h (loudsFile, files.louds) (mem_memoryFiles.mpr (.inl rfl))
    · exact h (loudsCharsFile, files.characters) (mem_memoryFiles.mpr (.inr (.inl rfl)))
    · exact h (metadataFile, files.metadata) (mem_memoryFiles.mpr (.inr (.inr (.inl rfl))))
    · intro index shard hshard
      exact h (shardFile index, shard)
        (mem_memoryFiles.mpr (.inr (.inr (.inr ⟨index, shard, hshard, rfl⟩))))

theorem SameMemory.trans (hfirst : SameMemory before directory)
    (hsecond : SameMemory directory left) :
    SameMemory before left :=
  fun name hname => (hsecond name hname).trans (hfirst name hname)

theorem SameMemory.memory (h : SameMemory before directory) {name : FileName}
    (hname : IsMemory name) : directory name = before name :=
  h name fun other => (hname.ne_temporaryFile other).symm

theorem SameMemory.pause (h : SameMemory before directory) :
    directory pauseFile = before pauseFile :=
  h pauseFile fun other => (temporaryFile_ne_pauseFile other).symm

theorem SameMemory.holds (h : SameMemory before directory) (hholds : Holds before files) :
    Holds directory files :=
  holds_iff.mpr fun pair hpair =>
    (h.memory (isMemory_of_mem hpair)).trans (holds_iff.mp hholds pair hpair)

theorem SameMemory.decode (h : SameMemory before directory) (format : FloatFormat) :
    decodeDirectory format directory = decodeDirectory format before :=
  decodeDirectory_congr (h.memory .metadata) (h.memory .louds) (h.memory .characters)
    fun _ _ index _ => h.memory (.shard index)

/-! ### Writing the temporary files -/

theorem writeSteps_eq (files : EncodedMemory) :
    writeSteps files = ((memoryFiles files).map fun pair => (temporaryFile pair.1, pair.2)).map
      fun pair => .write pair.1 pair.2 := by
  simp only [writeSteps, memoryFiles, writeTemporary, List.map_cons, map_mapIdx]

theorem target_of_mem_writeSteps {step : FileStep} (h : step ∈ writeSteps files) :
    ∃ name, step.target = temporaryFile name := by
  rw [writeSteps_eq, List.map_map] at h
  obtain ⟨pair, -, rfl⟩ := List.mem_map.mp h
  exact ⟨pair.1, rfl⟩

theorem sameMemory_of_cut_write (h : Cut (writeSteps files) directory left) :
    SameMemory directory left := by
  intro name hname
  refine h.frame ?_
  intro step hstep
  obtain ⟨other, hother⟩ := target_of_mem_writeSteps hstep
  rw [hother]
  exact hname other

theorem runAll_writeSteps (files : EncodedMemory) (directory : Directory) :
    ∃ after, runAll (writeSteps files) directory = some after ∧ TemporariesHold after files := by
  have hnames : (((memoryFiles files).map fun pair => (temporaryFile pair.1, pair.2)).map
      Prod.fst).Nodup := by
    have hmap : (((memoryFiles files).map Prod.fst).map temporaryFile).Nodup :=
      (memoryFiles_names_nodup files).map fun _ _ => temporaryFile_injective
    rw [List.map_map] at hmap ⊢
    exact hmap
  obtain ⟨after, hafter, hheld⟩ := runAll_writes _ directory hnames
  refine ⟨after, by rw [writeSteps_eq]; exact hafter, ?_⟩
  intro pair hpair
  exact hheld (temporaryFile pair.1, pair.2) (List.mem_map.mpr ⟨pair, hpair, rfl⟩)

/-! ### Publishing -/

/-- Names that publishing may copy to: neither temporary nor the marker. -/
def IsLive (name : FileName) : Prop :=
  name ≠ pauseFile ∧ ∀ other, temporaryFile other ≠ name

theorem IsMemory.isLive {name : FileName} (h : IsMemory name) : IsLive name :=
  ⟨h.ne_pauseFile, h.ne_temporaryFile⟩

theorem restore_copies (names : List FileName) : names.map restoreTemporary =
    (names.map fun name => (temporaryFile name, name)).map fun pair => .copy pair.1 pair.2 := by
  rw [List.map_map]
  rfl

theorem copies_apart {names : List FileName} (hlive : ∀ name ∈ names, IsLive name) :
    ∀ first ∈ names.map fun name => (temporaryFile name, name),
      ∀ second ∈ names.map fun name => (temporaryFile name, name), first.1 ≠ second.2 := by
  intro first hfirst second hsecond
  obtain ⟨name, -, rfl⟩ := List.mem_map.mp hfirst
  obtain ⟨other, hother, rfl⟩ := List.mem_map.mp hsecond
  exact (hlive other hother).2 name

/-- Live names are copied from their temporary files. -/
theorem runAll_restore {names : List FileName} (hlive : ∀ name ∈ names, IsLive name)
    (hsources : ∀ name ∈ names, (directory (temporaryFile name)).isSome) :
    ∃ after, runAll (names.map restoreTemporary) directory = some after ∧
      ∀ name ∈ names, after name = directory (temporaryFile name) := by
  obtain ⟨after, hafter, hcopied⟩ := runAll_copies
    (names.map fun name => (temporaryFile name, name)) directory
    (fun pair hpair => by
      obtain ⟨name, hname, rfl⟩ := List.mem_map.mp hpair
      exact hsources name hname)
    (copies_apart hlive)
    (fun first hfirst second hsecond heq => by
      obtain ⟨name, -, rfl⟩ := List.mem_map.mp hfirst
      obtain ⟨other, -, rfl⟩ := List.mem_map.mp hsecond
      exact congrArg temporaryFile heq)
  refine ⟨after, by rw [restore_copies]; exact hafter, ?_⟩
  intro name hname
  exact hcopied (temporaryFile name, name) (List.mem_map.mpr ⟨name, hname, rfl⟩)

theorem Prepared.frame (h : Prepared files directory)
    (hkept : ∀ name, (name = pauseFile ∨ ∃ other, name = temporaryFile other) →
      left name = directory name) : Prepared files left where
  paused := by
    rw [hkept pauseFile (.inl rfl)]
    exact h.paused
  temporaries pair hpair := by
    rw [hkept (temporaryFile pair.1) (.inr ⟨pair.1, rfl⟩)]
    exact h.temporaries pair hpair

theorem isSome_of_runAll_restore {names : List FileName} (hlive : ∀ name ∈ names, IsLive name)
    (h : runAll (names.map restoreTemporary) directory = some after) :
    ∀ name ∈ names, (directory (temporaryFile name)).isSome := by
  rw [restore_copies] at h
  intro name hname
  exact isSome_of_runAll_copies (copies_apart hlive) h (temporaryFile name, name)
    (List.mem_map.mpr ⟨name, hname, rfl⟩)

theorem ne_target_of_restore {names : List FileName} (hlive : ∀ name ∈ names, IsLive name)
    {name : FileName} (hname : name = pauseFile ∨ ∃ other, name = temporaryFile other) :
    ∀ step ∈ names.map restoreTemporary, name ≠ step.target := by
  intro step hstep
  obtain ⟨target, htarget, rfl⟩ := List.mem_map.mp hstep
  cases hname with
  | inl hpause =>
    rw [hpause]
    exact (hlive target htarget).1.symm
  | inr htemporary =>
    obtain ⟨other, rfl⟩ := htemporary
    exact (hlive target htarget).2 other

/-- Copying every file of a prepared save and removing the marker publishes it. A cut leaves
it prepared or published. -/
theorem publish_runs {names : List FileName} (hlive : ∀ name ∈ names, IsLive name)
    (hcover : ∀ pair ∈ memoryFiles files, pair.1 ∈ names) :
    Runs (fun directory => Prepared files directory ∧
        ∀ name ∈ names, (directory (temporaryFile name)).isSome)
      (names.map restoreTemporary ++ [.remove pauseFile]) (Published files)
      (fun directory => Prepared files directory ∨ Published files directory) := by
  have hcopies : Runs (fun directory => Prepared files directory ∧
        ∀ name ∈ names, (directory (temporaryFile name)).isSome)
      (names.map restoreTemporary)
        (fun directory => Prepared files directory ∧ Holds directory files)
      (fun directory => Prepared files directory ∨ Published files directory) := by
    refine .of_done ?_ ?_
    · intro directory hpre
      obtain ⟨after, hafter, hcopied⟩ := runAll_restore hlive hpre.2
      refine ⟨after, hafter, hpre.1.frame ?_, holds_iff.mpr ?_⟩
      · exact fun name hname => runAll_frame hafter (ne_target_of_restore hlive hname)
      · intro pair hpair
        rw [hcopied pair.1 (hcover pair hpair), hpre.1.temporaries pair hpair]
    · intro directory left hpre hkept
      exact .inl (hpre.1.frame fun name hname => hkept name (ne_target_of_restore hlive hname))
  have hremoved : ∀ directory, Holds directory files →
      Published files (Function.update directory pauseFile none) := by
    intro directory hholds
    refine ⟨Function.update_self _ _ _, holds_iff.mpr ?_⟩
    intro pair hpair
    rw [Function.update_of_ne (isMemory_of_mem hpair).ne_pauseFile]
    exact holds_iff.mp hholds pair hpair
  have hremove : Runs (fun directory => Prepared files directory ∧ Holds directory files)
      [.remove pauseFile] (Published files)
      (fun directory => Prepared files directory ∨ Published files directory) := by
    refine ⟨?_, ?_⟩
    · exact fun directory hpre => ⟨_, rfl, hremoved directory hpre.2⟩
    · intro directory left hpre hcut
      cases hcut with
      | stop => exact .inl hpre.1
      | torn _ htorn =>
        cases htorn with
        | untouched => exact .inl hpre.1
      | next hstep hrest =>
        obtain rfl := Option.some.inj hstep
        cases hrest with
        | stop => exact .inr (hremoved directory hpre.2)
  exact hcopies.append hremove

end BeanKey.Learning
