import BeanKey.Learning.Decodes
import BeanKey.Learning.Index
import BeanKey.Dictionary.Utf8

/-! What a directory decodes to after a save: the records of each reading, cut to those a
block can count. Only an empty word does not come back. -/
namespace BeanKey.Learning
open BeanKey.Lattice Packing
open BeanKey.Dictionary (CharacterIdMap FloatFormat)

variable (unicode : UnicodeTable) (format : FloatFormat)

/-- An entry as it is read back: the empty word stands for the reading. -/
def storedEntry (record : LearningRecord) : DictionaryEntry where
  word := if record.entry.word = [] then record.entry.ruby else record.entry.word
  ruby := record.entry.ruby
  leftId := record.entry.leftId
  rightId := record.entry.rightId
  meaningId := record.entry.meaningId
  baseValue := format.fromBits
    (format.toBits (learningValue unicode record.count record.entry.ruby) % 256 ^ 4)

def storedRecord (record : LearningRecord) : LearningRecord :=
  { record with entry := storedEntry unicode format record }

structure IsWord16 (entry : DictionaryEntry) : Prop where
  leftId : entry.leftId < 65536
  rightId : entry.rightId < 65536
  meaningId : entry.meaningId < 65536

/-- What a field of the format can hold: no control characters, identifiers of 16 bits. -/
structure Storable (entry : DictionaryEntry) : Prop where
  word : entry.word.any isControl = false
  ruby : entry.ruby.any isControl = false
  ids : IsWord16 entry

variable {unicode format}

/-! ### One block -/

theorem readU16_of_drop {bytes after : Bytes} {offset value : Nat}
    (h : bytes.drop offset = toLeBytes 2 value ++ after) (hvalue : value < 65536)
    (context : String) : Dictionary.readU16 bytes offset context = .ok value := by
  rw [Dictionary.readU16, Dictionary.readField_of_drop (by decide) h (toLeBytes_length _ _),
    fromLeBytes_toLeBytes_of_lt (hvalue.trans_eq (by decide))]

theorem readEntryHeader_of_drop {bytes after : Bytes} {index : Nat} {record : LearningRecord}
    (hids : IsWord16 record.entry)
    (h : bytes.drop (2 + index * Dictionary.entryHeaderSize) =
      encodeEntryHeader unicode format record ++ after) :
    Dictionary.readEntryHeader format bytes index =
      .ok { storedEntry unicode format record with word := [], ruby := [] } := by
  rw [encodeEntryHeader, List.append_assoc, List.append_assoc, List.append_assoc] at h
  have hright := drop_past h (toLeBytes_length _ _)
  have hmeaning := drop_past hright (toLeBytes_length _ _)
  have hvalue := drop_past hmeaning (toLeBytes_length _ _)
  rw [Dictionary.readEntryHeader]
  simp only [readU16_of_drop h hids.leftId, readU16_of_drop hright hids.rightId,
    readU16_of_drop hmeaning hids.meaningId, Dictionary.readF32, Dictionary.readU32,
    Dictionary.readField_of_drop (by decide) hvalue (toLeBytes_length _ _), fromLeBytes_toLeBytes,
    bind, Except.bind, pure, Except.pure]
  rfl

theorem utf8_printable {value : Text} (h : value.any isControl = false) :
    ∀ byte ∈ utf8 value, 0x20 ≤ byte.toNat := by
  intro byte hin
  obtain ⟨character, hcharacter, hbyte⟩ := List.mem_flatMap.mp hin
  have hcontrol : isControl character = false := by
    simpa using List.any_eq_false.mp h character hcharacter
  have hlarge : 0x20 ≤ character.toNat := by
    simp only [isControl, Bool.or_eq_false_iff, decide_eq_false_iff_not] at hcontrol
    omega
  have hval : character.val.toNat = character.toNat := rfl
  rw [String.utf8EncodeChar] at hbyte
  simp only [hval] at hbyte
  have hbytes : ∀ number < 256, 0x20 ≤ number → byte = UInt8.ofNat number →
      0x20 ≤ byte.toNat := by
    intro number hsmall hprintable heq
    rw [heq, UInt8.toNat_ofNat_of_lt' (by rw [UInt8.size]; omega)]
    exact hprintable
  split at hbyte
  · exact hbytes character.toNat (by omega) (by omega) (List.mem_singleton.mp hbyte)
  · split at hbyte
    · simp only [List.mem_cons, List.not_mem_nil, or_false] at hbyte
      obtain hbyte | hbyte := hbyte
      all_goals exact hbytes _ (by omega) (by omega) hbyte
    · split at hbyte
      · simp only [List.mem_cons, List.not_mem_nil, or_false] at hbyte
        obtain hbyte | hbyte | hbyte := hbyte
        all_goals exact hbytes _ (by omega) (by omega) hbyte
      · simp only [List.mem_cons, List.not_mem_nil, or_false] at hbyte
        obtain hbyte | hbyte | hbyte | hbyte := hbyte
        all_goals exact hbytes _ (by omega) (by omega) hbyte

theorem tab_not_mem_utf8 {value : Text} (h : value.any isControl = false) :
    (9 : UInt8) ∉ utf8 value :=
  fun hin => absurd (utf8_printable h _ hin) (by decide)

def wordBytes (ruby : Text) (record : LearningRecord) : Bytes :=
  if record.entry.word = ruby then [] else utf8 record.entry.word

theorem tab_not_mem_wordBytes {record : LearningRecord} (h : Storable record.entry) (ruby : Text) :
    (9 : UInt8) ∉ wordBytes ruby record := by
  by_cases heq : record.entry.word = ruby
  · rw [wordBytes, if_pos heq]
    exact List.not_mem_nil
  · rw [wordBytes, if_neg heq]
    exact tab_not_mem_utf8 h.word

theorem splitOn_words {ruby : Text} {block : List LearningRecord}
    (h : ∀ record ∈ block, Storable record.entry) {start : Bytes} (hstart : (9 : UInt8) ∉ start) :
    (start ++ block.flatMap (encodeWord ruby)).splitOn 9 = start :: block.map (wordBytes ruby) := by
  induction block generalizing start with
  | nil => rw [List.flatMap_nil, List.append_nil, List.splitOn_eq_singleton hstart]; rfl
  | cons record rest ih =>
    rw [List.flatMap_cons, encodeWord, ← wordBytes, List.cons_append,
      List.splitOn_append_cons_self, List.splitOn_eq_singleton hstart,
      ih (fun other hin => h other (List.mem_cons_of_mem _ hin))
        (tab_not_mem_wordBytes (h record List.mem_cons_self) ruby)]
    rfl

theorem utf8_eq_nil {value : Text} : utf8 value = [] ↔ value = [] := by
  constructor
  · intro h
    rw [← Dictionary.fromUtf8Lossy_utf8 value, h]
    rfl
  · rintro rfl
    rfl

/-- A word is read back, the reading for an empty one. -/
theorem read_wordBytes (ruby : Text) (record : LearningRecord) :
    (if wordBytes ruby record = [] then ruby else Dictionary.fromUtf8Lossy
      (wordBytes ruby record)) =
      if record.entry.word = [] then ruby else record.entry.word := by
  by_cases heq : record.entry.word = ruby
  · rw [wordBytes, if_pos heq, if_pos rfl, heq, ite_self]
  · rw [wordBytes, if_neg heq, Dictionary.fromUtf8Lossy_utf8]
    simp only [utf8_eq_nil]

theorem blockRuby_eq {ruby : Text} {block : List LearningRecord} (hne : block ≠ [])
    (h : ∀ record ∈ block, record.entry.ruby = ruby) : blockRuby block = ruby := by
  cases block with
  | nil => exact absurd rfl hne
  | cons record rest => exact h record List.mem_cons_self

theorem parseEntryBlock_stored {block : List LearningRecord} (hsmall : block.length ≤ 255)
    (hstorable : ∀ record ∈ block, Storable record.entry) {ruby : Text}
    (hruby : ∀ record ∈ block, record.entry.ruby = ruby) :
    Dictionary.parseEntryBlock format (encodeEntryBlock unicode format block) =
      .ok (block.map (storedEntry unicode format)) := by
  obtain ⟨hcount, hheaders, htext, hlength⟩ := encodeEntryBlock_layout unicode format hsmall
  have hread : (List.range block.length).mapM
      (Dictionary.readEntryHeader format (encodeEntryBlock unicode format block)) =
      .ok (block.map fun record =>
        { storedEntry unicode format record with word := [], ruby := [] }) := by
    rw [← List.length_map (f := fun record : LearningRecord =>
      { storedEntry unicode format record with word := [], ruby := [] })]
    refine Loop.mapM_range_ok ?_
    intro index entry hentry
    rw [List.getElem?_map] at hentry
    obtain ⟨record, hrecord, rfl⟩ := Option.map_eq_some_iff.mp hentry
    obtain ⟨hlt, rfl⟩ := List.getElem?_eq_some_iff.mp hrecord
    have hinside : index * Dictionary.entryHeaderSize ≤
        (block.flatMap (encodeEntryHeader unicode format)).length := by
      rw [flatMap_encodeEntryHeader_length]
      exact Nat.mul_le_mul_right _ hlt.le
    have hdrop : (encodeEntryBlock unicode format block).drop
        (2 + index * Dictionary.entryHeaderSize) = encodeEntryHeader unicode format block[index] ++
          ((block.drop (index + 1)).flatMap (encodeEntryHeader unicode format) ++
            blockText block) := by
      rw [← List.drop_drop, hheaders, List.drop_append_of_le_length hinside,
        drop_flatMap encodeEntryHeader_length, List.drop_eq_getElem_cons hlt, List.flatMap_cons,
        List.append_assoc]
    exact readEntryHeader_of_drop (hstorable _ (List.getElem_mem hlt)).ids hdrop
  have hfields : (blockText block).splitOn 9 =
      utf8 (blockRuby block) :: block.map (wordBytes (blockRuby block)) := by
    refine splitOn_words hstorable ?_
    cases block with
    | nil => exact List.not_mem_nil
    | cons record rest => exact tab_not_mem_utf8 (hstorable record List.mem_cons_self).ruby
  have hwords : (block.map (wordBytes (blockRuby block))).take block.length =
      block.map (wordBytes (blockRuby block)) := List.take_of_length_le (by rw [List.length_map])
  rw [Dictionary.parseEntryBlock]
  simp only [hcount, Dictionary.requireBytes_ok hlength, hread, htext, hfields, bind, Except.bind,
    List.length_cons, List.length_map, Nat.lt_irrefl, if_false, List.headD_cons, List.tail_cons,
    Dictionary.fromUtf8Lossy_utf8, hwords, List.zip_map', List.map_map]
  refine congrArg Except.ok (List.map_congr_left ?_)
  intro record hin
  have hown : blockRuby block = record.entry.ruby := by
    rw [blockRuby_eq (List.ne_nil_of_mem hin) hruby, hruby record hin]
  rw [Function.comp_apply, hown]
  simp only [read_wordBytes]
  rfl

/-! ### The whole directory -/

theorem nodeRecords_stored (block : List LearningRecord) :
    nodeRecords (block.map (storedEntry unicode format)) (block.map metadataElement) =
      block.map (storedRecord unicode format) := by
  rw [nodeRecords, List.zip_map', List.map_map]
  rfl

theorem readRecords_stored {directory : Directory} {saved : List (List LearningRecord)} {node : Nat}
    {loaded : Option (Nat × Bytes)} (hloaded : Loaded directory loaded)
    (h : ∀ index block, saved[index]? = some block → ∃ shard,
      directory (shardFile ((node + index) / shardSize)) = some shard ∧
        readEntries format shard (node + index) (block.map metadataElement) =
          .ok (block.map (storedRecord unicode format))) :
    readRecords format directory node loaded (saved.map fun block => block.map metadataElement) =
      .ok (saved.flatten.map (storedRecord unicode format)) := by
  induction saved generalizing node loaded with
  | nil => rfl
  | cons block rest ih =>
    obtain ⟨shard, hshard, hentries⟩ := h 0 block rfl
    rw [Nat.add_zero] at hshard hentries
    have hrest := @ih (node + 1) _ (.next hshard) fun index other hother => by
      rw [Nat.add_assoc, Nat.add_comm 1]
      exact h (index + 1) other hother
    rw [List.map_cons, readRecords, loadShard_eq hloaded]
    simp only [readRequired, hshard, hentries, hrest, bind, Except.bind, pure, Except.pure]
    rw [List.flatten_cons, List.map_append]

/-- The saved blocks: one for every reading's characters, in level order. -/
theorem recordBlocks_eq (unicode : UnicodeTable) (records : List LearningRecord)
    (characterIds : CharacterIdMap) : ∃ paths : List (List UInt8),
      paths.Pairwise (List.Shortlex (· < ·)) ∧ [] ∉ paths ∧
      (∀ record ∈ records, ∀ ids ≠ [],
        characterIds.encode unicode record.entry.ruby = some ids → ids ∈ paths) ∧
      recordBlocks unicode records characterIds = [] :: [] :: paths.map fun ids =>
        (records.filter fun record =>
          characterIds.encode unicode record.entry.ruby = some ids).take 255 := by
  have hindexes : Indexes unicode characterIds (.new unicode records characterIds) records :=
    indexes_new records
  obtain ⟨paths, hordered, hroot, hall, hblocks⟩ := MemoryTrie.encode_blocks_eq hindexes.tree
  refine ⟨paths, hordered, hroot, ?_, ?_⟩
  · intro record hin ids hne hids
    exact hall ids hne ((walk_new_isSome _ _).mpr
      (.inr ⟨record, hin, ids, hids, List.prefix_rfl⟩))
  · rw [recordBlocks, hblocks]
    simp only [List.map_cons, List.take_nil, List.filterMap_nil, List.map_map]
    refine congrArg (fun blocks => [] :: [] :: blocks) (List.map_congr_left ?_)
    intro ids _
    rw [Function.comp_apply, hindexes.recordsAt, filterMap_take_scan]

theorem of_mem_recordBlocks {records block : List LearningRecord} {characterIds : CharacterIdMap}
    (h : block ∈ recordBlocks unicode records characterIds) :
    block ⊆ records ∧ ∃ ruby, ∀ record ∈ block, record.entry.ruby = ruby := by
  obtain ⟨paths, -, -, -, hblocks⟩ := recordBlocks_eq unicode records characterIds
  rw [hblocks] at h
  have hempty : ([] : List LearningRecord) ⊆ records ∧
      ∃ ruby, ∀ record ∈ ([] : List LearningRecord), record.entry.ruby = ruby :=
    ⟨List.nil_subset _, [], fun _ hin => absurd hin List.not_mem_nil⟩
  cases h with
  | head => exact hempty
  | tail _ h =>
    cases h with
    | head => exact hempty
    | tail _ h =>
      obtain ⟨ids, -, rfl⟩ := List.mem_map.mp h
      have hin : ∀ record ∈ (records.filter fun record =>
          characterIds.encode unicode record.entry.ruby = some ids).take 255,
          record ∈ records ∧ characterIds.encode unicode record.entry.ruby = some ids := by
        intro record hrecord
        simpa using List.mem_filter.mp (List.mem_of_mem_take hrecord)
      refine ⟨fun record hrecord => (hin record hrecord).1, ?_⟩
      cases hhead : (records.filter fun record =>
          characterIds.encode unicode record.entry.ruby = some ids).take 255 with
      | nil => exact ⟨[], fun _ hrecord => absurd hrecord List.not_mem_nil⟩
      | cons first rest =>
        rw [hhead] at hin
        refine ⟨first.entry.ruby, fun record hrecord => ?_⟩
        exact CharacterIdMap.encode_injective (hin record hrecord).2
          (hin first List.mem_cons_self).2

/-- After a save the directory decodes to the saved records, reading by reading. -/
theorem decodeDirectory_stored {records : List LearningRecord} {characterIds : CharacterIdMap}
    {directory : Directory} (h : Holds directory (encodeFiles unicode format records characterIds))
    (hfits : FieldsFit unicode format records characterIds)
    (hstorable : ∀ record ∈ records, Storable record.entry) :
    decodeDirectory format directory =
      .ok ((recordBlocks unicode records characterIds).flatten.map
        (storedRecord unicode format)) := by
  rw [decodeDirectory_of_main (mainFiles_encode h hfits.nodes)]
  refine readRecords_stored loaded_none ?_
  intro node block hblock
  rw [Nat.zero_add]
  have hin := List.mem_of_getElem? hblock
  obtain ⟨hsub, ruby, hruby⟩ := of_mem_recordBlocks hin
  obtain ⟨shard, hshard, hparse⟩ := readEntries_encode h hfits hblock
  refine ⟨shard, hshard, ?_⟩
  rw [readEntries, hparse, parseEntryBlock_stored (recordBlocks_small block hin)
    (fun record hrecord => hstorable record (hsub hrecord)) hruby]
  simp only [List.length_map, ne_eq, not_true_eq_false, if_false, nodeRecords_stored]

end BeanKey.Learning
