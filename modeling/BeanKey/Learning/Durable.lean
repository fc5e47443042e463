import BeanKey.Learning.Layers
import BeanKey.Learning.Reset

/-! What a directory can be read as, through saves, resets and openings that may be cut. -/
namespace BeanKey.Learning
open BeanKey.Lattice Crash
open BeanKey.Dictionary (CharacterIdMap FloatFormat)

variable {unicode : UnicodeTable} {format : FloatFormat} {characterIds : CharacterIdMap}
  {directory left after : Directory} {files : EncodedMemory} {listing : List FileName}

/-! ### The saved blocks form a layer -/

theorem storedEntry_word {record : LearningRecord} (h : record.entry.word ≠ []) :
    (storedEntry unicode format record).word = record.entry.word := if_neg h

theorem Learnable.stored {record : LearningRecord}
    (h : Learnable unicode characterIds record.entry) :
    Learnable unicode characterIds (storedEntry unicode format record) := by
  have hword : (storedEntry unicode format record).word = record.entry.word :=
    storedEntry_word h.word
  refine ⟨?_, by rw [hword]; exact h.word, h.ids.leftId, h.ids.rightId, h.ids.meaningId⟩
  have hvalid := h.valid
  rw [validLearningEntry] at hvalid ⊢
  rw [hword]
  exact hvalid

theorem sameEntry_stored {first second : LearningRecord} (hfirst : first.entry.word ≠ [])
    (hsecond : second.entry.word ≠ []) :
    sameEntry (storedEntry unicode format first) (storedEntry unicode format second) =
      sameEntry first.entry second.entry := by
  simp only [sameEntry, storedEntry_word hfirst, storedEntry_word hsecond]
  rfl

/-- The blocks of a save hold every record at most once. -/
theorem IsLayer.blocks {records : List LearningRecord}
    (h : IsLayer unicode characterIds (records.map LearningRecord.entry)) :
    IsLayer unicode characterIds
      ((recordBlocks unicode records characterIds).flatten.map LearningRecord.entry) := by
  obtain ⟨paths, hordered, -, -, hblocks⟩ := recordBlocks_eq unicode records characterIds
  have hnodup := LevelOrder.nodup_of_shortlex (fun _ => UInt8.lt_irrefl _) hordered
  have hflat : (recordBlocks unicode records characterIds).flatten = (paths.map fun ids =>
      (records.filter fun record =>
        characterIds.encode unicode record.entry.ruby = some ids).take 255).flatten := by
    rw [hblocks]
    rfl
  have hblock : ∀ ids, IsLayer unicode characterIds (((records.filter fun record =>
      characterIds.encode unicode record.entry.ruby = some ids).take 255).map
        LearningRecord.entry) := fun ids =>
    h.sublist (((List.take_sublist _ _).trans List.filter_sublist).map _)
  have hids : ∀ {ids : List UInt8} {record : LearningRecord}, record ∈ (records.filter fun record =>
      characterIds.encode unicode record.entry.ruby = some ids).take 255 →
      characterIds.encode unicode record.entry.ruby = some ids := by
    intro ids record hin
    simpa using (List.mem_filter.mp (List.mem_of_mem_take hin)).2
  rw [hflat, List.map_flatten, List.map_map]
  constructor
  · intro entry hin
    obtain ⟨block, hblockIn, hentry⟩ := List.mem_flatten.mp hin
    obtain ⟨ids, -, rfl⟩ := List.mem_map.mp hblockIn
    exact (hblock ids).learnable entry hentry
  · refine List.pairwise_flatten.mpr ⟨?_, ?_⟩
    · intro block hin
      obtain ⟨ids, -, rfl⟩ := List.mem_map.mp hin
      exact (hblock ids).distinct
    · refine List.pairwise_map.mpr (hnodup.imp ?_)
      intro ids ids' hne first hfirst second hsecond
      obtain ⟨record, hrecord, rfl⟩ := List.mem_map.mp hfirst
      obtain ⟨other, hother, rfl⟩ := List.mem_map.mp hsecond
      refine Bool.eq_false_iff.mpr fun hsame => hne ?_
      have hruby := (sameEntry_iff.mp hsame).1
      have hencoded := hids hrecord
      rw [hruby, hids hother] at hencoded
      exact (Option.some.inj hencoded).symm

theorem IsLayer.stored {records : List LearningRecord}
    (h : IsLayer unicode characterIds (records.map LearningRecord.entry)) :
    IsLayer unicode characterIds
      ((records.map (storedRecord unicode format)).map LearningRecord.entry) := by
  rw [List.map_map]
  constructor
  · intro entry hin
    obtain ⟨record, hrecord, rfl⟩ := List.mem_map.mp hin
    exact (h.learnable _ (List.mem_map.mpr ⟨record, hrecord, rfl⟩)).stored
  · refine List.pairwise_map.mpr ((List.pairwise_map.mp h.distinct).imp_of_mem ?_)
    intro first second hfirst hsecond hdiffer
    have hword : ∀ {record}, record ∈ records → record.entry.word ≠ [] := fun hin =>
      (h.learnable _ (List.mem_map.mpr ⟨_, hin, rfl⟩)).word
    exact (sameEntry_stored (hword hfirst) (hword hsecond)).trans hdiffer

/-! ### What a directory reads as -/

def ReadsLayer (unicode : UnicodeTable) (format : FloatFormat) (characterIds : CharacterIdMap)
    (directory : Directory) : Prop :=
  ∀ decoded, decodeDirectory format directory = .ok decoded →
    IsLayer unicode characterIds (decoded.map LearningRecord.entry)

def SavesLayer (unicode : UnicodeTable) (format : FloatFormat) (characterIds : CharacterIdMap)
    (files : EncodedMemory) : Prop :=
  ∀ directory, Holds directory files → ReadsLayer unicode format characterIds directory

/-- The directory reads as a layer now, or will after the recovery of a save that was cut. -/
def Durable (unicode : UnicodeTable) (format : FloatFormat) (characterIds : CharacterIdMap)
    (directory : Directory) : Prop :=
  ∃ before, ReadsLayer unicode format characterIds before ∧
    AttemptsState before (SavesLayer unicode format characterIds) directory

theorem savesLayer {records : List LearningRecord}
    (h : IsLayer unicode characterIds (records.map LearningRecord.entry))
    (hfits : (encodeFiles unicode format records characterIds).Fits) :
    SavesLayer unicode format characterIds (encodeFiles unicode format records characterIds) := by
  intro directory hholds decoded hdecoded
  have hstorable : ∀ record ∈ records, Storable record.entry := fun record hin =>
    (h.learnable _ (List.mem_map.mpr ⟨record, hin, rfl⟩)).storable
  rw [decodeDirectory_stored hholds hfits.fields hstorable] at hdecoded
  obtain rfl := Except.ok.inj hdecoded
  exact h.blocks.stored

theorem ReadsLayer.of_same (h : ReadsLayer unicode format characterIds directory)
    (hsame : SameMemory directory left) : ReadsLayer unicode format characterIds left := by
  intro decoded hdecoded
  exact h decoded ((hsame.decode format).symm.trans hdecoded)

theorem Durable.of_reads (hnone : directory pauseFile = none)
    (h : ReadsLayer unicode format characterIds directory) :
    Durable unicode format characterIds directory :=
  ⟨directory, h, .untouched hnone fun _ _ => rfl⟩

theorem readsLayer_of_none (h : directory metadataFile = none) :
    ReadsLayer unicode format characterIds directory := by
  intro decoded hdecoded
  rw [decodeDirectory_of_none h] at hdecoded
  obtain rfl := Except.ok.inj hdecoded
  exact isLayer_nil

theorem Durable.reads (h : Durable unicode format characterIds directory)
    (hnone : directory pauseFile = none) : ReadsLayer unicode format characterIds directory := by
  obtain ⟨before, hbefore, hstate⟩ := h
  cases hstate with
  | untouched _ hsame => exact hbefore.of_same hsame
  | prepared _ _ hprepared => exact absurd hprepared.paused (by simp [hnone])
  | published _ hsaved hpublished => exact hsaved directory hpublished.holds

theorem Durable.attempt (h : Durable unicode format characterIds directory)
    (hcut : Cut (saveSteps files) directory left) (hkeeps : KeepsTemporaries directory files left)
    (hsaved : SavesLayer unicode format characterIds files) :
    Durable unicode format characterIds left := by
  obtain ⟨before, hbefore, hstate⟩ := h
  exact ⟨before, hbefore, hstate.attempt hcut hkeeps hsaved⟩

theorem keepsTemporaries_of_run (h : runAll (saveSteps files) directory = some after) :
    KeepsTemporaries directory files after := by
  rw [saveSteps, runAll_append] at h
  obtain ⟨written, hwritten, hpublish⟩ := Option.bind_eq_some_iff.mp h
  exact .inr (.inr ⟨written, hwritten, cut_of_runAll hpublish⟩)

theorem Durable.recover (h : Durable unicode format characterIds directory)
    (hlisting : IsListing directory listing)
    (hcut : Cut (recoverIfPaused directory listing) directory left) :
    Durable unicode format characterIds left := by
  obtain ⟨before, hbefore, hstate⟩ := h
  have hunpaused : directory pauseFile = none → left = directory := by
    intro hnone
    rw [recoverIfPaused_of_none hnone] at hcut
    cases hcut
    rfl
  cases hstate with
  | untouched hnone hsame =>
    rw [hunpaused hnone]
    exact ⟨before, hbefore, .untouched hnone hsame⟩
  | prepared files hsaved hprepared =>
    cases (recover_runs hprepared hlisting).cut _ left rfl hcut with
    | inl hleft => exact ⟨before, hbefore, .prepared files hsaved hleft⟩
    | inr hleft => exact ⟨before, hbefore, .published files hsaved hleft⟩
  | published files hsaved hpublished =>
    rw [hunpaused hpublished.unpaused]
    exact ⟨before, hbefore, .published files hsaved hpublished⟩

theorem recovered_unpaused (hlisting : IsListing directory listing)
    (hafter : runAll (recoverIfPaused directory listing) directory = some after) :
    after pauseFile = none := by
  cases hpause : directory pauseFile with
  | none =>
    rw [runAll_recover_of_none hpause] at hafter
    exact Option.some.inj hafter ▸ hpause
  | some content =>
    exact (recovered_of_run (by rw [hpause]; rfl) hlisting hafter).2.unpaused

/-- Removing files hides records; it does not change those that can still be read. -/
theorem ReadsLayer.without (h : ReadsLayer unicode format characterIds directory)
    (names : List FileName) :
    ReadsLayer unicode format characterIds (without directory names) := by
  intro decoded hdecoded
  obtain hnone | ⟨blocks, hmain, hnodes⟩ := decodeDirectory_ok_iff.mp ⟨decoded, hdecoded⟩
  · exact readsLayer_of_none hnone decoded hdecoded
  · obtain ⟨metadata, louds, characters, hmetadata, hlouds, hcharacters, hread⟩ := hmain
    refine h decoded ((decodeDirectory_congr ?_ ?_ ?_ ?_).symm.trans hdecoded)
    · exact hmetadata.trans (without_eq_some.mp hmetadata).2.symm
    · exact hlouds.trans (without_eq_some.mp hlouds).2.symm
    · exact hcharacters.trans (without_eq_some.mp hcharacters).2.symm
    · intro found hfound index hneeded
      obtain rfl := Option.some.inj (hcharacters.symm.trans hfound)
      have hlength : index * shardSize < blocks.length := by
        rw [readMetadata_length hread]
        exact hneeded
      obtain ⟨shard, hshard, -⟩ := hnodes _ _ (List.getElem?_eq_getElem hlength)
      rw [Nat.mul_div_cancel _ (show 0 < shardSize by decide)] at hshard
      exact hshard.trans (without_eq_some.mp hshard).2.symm

theorem durable_reset (hlisting : IsListing directory listing)
    (hafter : runAll (resetSteps listing) directory = some after) :
    Durable unicode format characterIds after := by
  rw [runAll_resetSteps] at hafter
  obtain rfl := Option.some.inj hafter
  exact .of_reads (remaining_resetNames hlisting (by decide))
    (readsLayer_of_none (remaining_resetNames hlisting IsMemory.metadata.isMemoryFile))

/-- A reset that fails where there is no marker leaves none. -/
theorem Durable.reset (h : Durable unicode format characterIds directory)
    (hnone : directory pauseFile = none) (hcut : Cut (resetSteps listing) directory left) :
    Durable unicode format characterIds left := by
  obtain ⟨count, -, rfl⟩ := cut_resetSteps_iff.mp hcut
  exact .of_reads (without_eq_none.mpr (.inr hnone)) ((h.reads hnone).without _)

end BeanKey.Learning
