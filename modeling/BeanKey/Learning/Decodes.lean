import BeanKey.Learning.Reading

/-! What a save writes can be read back: decoding the encoded files succeeds. -/
namespace BeanKey.Learning
open BeanKey.Lattice Packing
open BeanKey.Dictionary (CharacterIdMap FloatFormat Louds parseEntryShard)

variable {unicode : UnicodeTable} {format : FloatFormat}

/-! ### Metadata -/

def metadataElement (record : LearningRecord) : MetadataElement :=
  ⟨record.lastUsedDay, record.lastUpdatedDay, record.count⟩

theorem encodeMetadataElement_length (record : LearningRecord) :
    (encodeMetadataElement record).length = metadataElementSize := by
  simp [encodeMetadataElement, metadataElementSize]

theorem readArray_of_drop {bytes part after : Bytes} {width cursor : Nat} (hpos : 0 < width)
    (h : bytes.drop cursor = part ++ after) (hwidth : part.length = width) :
    readArray width bytes cursor = .ok (fromLeBytes part) := by
  rw [readArray, if_pos (le_length_of_drop h hwidth hpos), take_of_drop_eq h hwidth]

theorem readDay_of_drop {bytes after : Bytes} {cursor : Nat} {day : UInt16}
    (h : bytes.drop cursor = toLeBytes 2 day.toNat ++ after) :
    readArray 2 bytes cursor = .ok day.toNat := by
  rw [readArray_of_drop (by decide) h (toLeBytes_length _ _),
    fromLeBytes_toLeBytes_of_lt (day.toNat_lt.trans_eq (by decide))]

theorem readElement_of_drop {metadata after : Bytes} {cursor : Nat} {record : LearningRecord}
    (h : metadata.drop cursor = encodeMetadataElement record ++ after) :
    readElement metadata cursor =
      .ok (metadataElement record, cursor + metadataElementSize) := by
  rw [encodeMetadataElement, List.append_assoc, List.append_assoc] at h
  have hupdated := drop_past h (toLeBytes_length _ _)
  have hcount := drop_past hupdated (toLeBytes_length _ _)
  have hget : metadata[cursor + 4]? = some record.count := by
    have hhead := congrArg (fun bytes : Bytes => bytes[0]?) hcount
    simpa [List.getElem?_drop] using hhead
  rw [readElement, readDay_of_drop h, readDay_of_drop hupdated]
  simp [hget, metadataElement, bind, Except.bind, metadataElementSize]

theorem readElements_of_drop {metadata after : Bytes} {cursor : Nat}
    {block : List LearningRecord}
    (h : metadata.drop cursor = block.flatMap encodeMetadataElement ++ after) :
    readElements metadata block.length cursor =
      .ok (block.map metadataElement, cursor + block.length * metadataElementSize) := by
  induction block generalizing cursor with
  | nil => simp [readElements]
  | cons record rest ih =>
    rw [List.flatMap_cons, List.append_assoc] at h
    have hrest := ih (drop_past h (encodeMetadataElement_length record))
    rw [List.length_cons, readElements, readElement_of_drop h]
    simp only [bind, Except.bind, hrest, pure, Except.pure, List.map_cons]
    congr 2
    rw [Nat.succ_mul]
    omega

theorem flatMap_encodeMetadataElement_length (block : List LearningRecord) :
    (block.flatMap encodeMetadataElement).length = block.length * metadataElementSize := by
  rw [List.flatMap_def, flatten_length_of_blocks metadataElementSize, List.length_map]
  intro bytes hbytes
  obtain ⟨record, -, rfl⟩ := List.mem_map.mp hbytes
  exact encodeMetadataElement_length record

theorem readBlocks_of_drop {metadata : Bytes} {cursor : Nat} {blocks : List (List LearningRecord)}
    (hsmall : ∀ block ∈ blocks, block.length ≤ 255)
    (h : metadata.drop cursor = blocks.flatMap encodeMetadataBlock)
    (hcursor : cursor ≤ metadata.length) :
    readBlocks metadata blocks.length cursor =
      .ok (blocks.map fun block => block.map metadataElement, metadata.length) := by
  induction blocks generalizing cursor with
  | nil =>
    have hlength := congrArg List.length h
    rw [List.length_drop] at hlength
    simp only [List.flatMap_nil, List.length_nil] at hlength
    simp [readBlocks]
    omega
  | cons block rest ih =>
    have hblock := hsmall block List.mem_cons_self
    rw [List.flatMap_cons, encodeMetadataBlock, Nat.min_eq_left hblock] at h
    have hcount : metadata[cursor]? = some (UInt8.ofNat block.length) := by
      have hhead := congrArg (fun bytes : Bytes => bytes[0]?) h
      simpa [List.getElem?_drop] using hhead
    have hone : metadata.drop cursor = [UInt8.ofNat block.length] ++
        (block.flatMap encodeMetadataElement ++ rest.flatMap encodeMetadataBlock) := by
      rw [h]
      simp
    have helements : metadata.drop (cursor + 1) = _ := drop_past hone rfl
    have hrest := drop_past helements (flatMap_encodeMetadataElement_length block)
    have hnat : (UInt8.ofNat block.length).toNat = block.length := by
      rw [UInt8.toNat_ofNat', Nat.mod_eq_of_lt (by omega)]
    have hnext : cursor + 1 + block.length * metadataElementSize ≤ metadata.length := by
      have hlength := congrArg List.length h
      have hpos : cursor < metadata.length := (List.getElem?_eq_some_iff.mp hcount).1
      rw [List.length_drop, List.length_append, List.length_cons,
        flatMap_encodeMetadataElement_length] at hlength
      omega
    have hothers := ih (fun other hin => hsmall other (List.mem_cons_of_mem _ hin)) hrest hnext
    rw [List.length_cons, readBlocks]
    simp only [hcount, hnat, readElements_of_drop helements, bind, Except.bind, hothers, pure,
      Except.pure, List.map_cons]

theorem readMetadata_encode {louds characters : Bytes} {tree : Louds}
    {blocks : List (List LearningRecord)} (hparse : Louds.parse louds characters = .ok tree)
    (hnodes : tree.nodeCount = characters.length) (hblocks : blocks.length = characters.length)
    (hsmall : ∀ block ∈ blocks, block.length ≤ 255) (hfits : characters.length < 256 ^ 4) :
    readMetadata (encodeMetadata blocks) louds characters =
      .ok (blocks.map fun block => block.map metadataElement) := by
  have hmin : min blocks.length 4294967295 = blocks.length := by omega
  have hstart : (encodeMetadata blocks).drop 0 =
      toLeBytes 4 blocks.length ++ blocks.flatMap encodeMetadataBlock := by
    rw [List.drop_zero, encodeMetadata, hmin]
  have hcount : readArray 4 (encodeMetadata blocks) 0 = .ok characters.length := by
    rw [readArray_of_drop (by decide) hstart (toLeBytes_length _ _),
      fromLeBytes_toLeBytes_of_lt (hblocks ▸ hfits), hblocks]
  have hread := readBlocks_of_drop hsmall (drop_past hstart (toLeBytes_length _ _))
    (le_length_of_drop hstart (toLeBytes_length _ _) (by decide))
  rw [Nat.zero_add, hblocks] at hread
  rw [readMetadata, hparse]
  simp only [hcount, hread, hnodes, bind, Except.bind, ne_eq, not_true_eq_false, or_self,
    if_false]

/-! ### Entry blocks -/

theorem encodeEntryHeader_length (record : LearningRecord) :
    (encodeEntryHeader unicode format record).length = Dictionary.entryHeaderSize := by
  simp [encodeEntryHeader, Dictionary.entryHeaderSize]

theorem flatMap_encodeEntryHeader_length (block : List LearningRecord) :
    (block.flatMap (encodeEntryHeader unicode format)).length =
      block.length * Dictionary.entryHeaderSize := by
  rw [List.flatMap_def, flatten_length_of_blocks Dictionary.entryHeaderSize,
    List.length_map]
  intro bytes hbytes
  obtain ⟨record, -, rfl⟩ := List.mem_map.mp hbytes
  exact encodeEntryHeader_length record

theorem lt_splitOn_words (ruby : Text) (block : List LearningRecord) (start : Bytes) :
    block.length < ((start ++ block.flatMap (encodeWord ruby)).splitOn 9).length := by
  induction block generalizing start with
  | nil =>
    rw [List.flatMap_nil, List.append_nil]
    exact List.length_pos_of_ne_nil (List.splitOn_ne_nil _ _)
  | cons record rest ih =>
    have hrest := ih (if record.entry.word = ruby then [] else utf8 record.entry.word)
    have hstart := List.length_pos_of_ne_nil (List.splitOn_ne_nil (9 : UInt8) start)
    rw [List.flatMap_cons, encodeWord, List.cons_append, List.splitOn_append_cons_self,
      List.length_append, List.length_cons]
    omega

def blockRuby (block : List LearningRecord) : Text :=
  (block.head?.map fun record => record.entry.ruby).getD []

def blockText (block : List LearningRecord) : Bytes :=
  utf8 (blockRuby block) ++ block.flatMap (encodeWord (blockRuby block))

structure BlockLayout (unicode : UnicodeTable) (format : FloatFormat)
    (block : List LearningRecord) (bytes : Bytes) : Prop where
  count : Dictionary.readU16 bytes 0 "entry count" = .ok block.length
  headers : bytes.drop 2 = block.flatMap (encodeEntryHeader unicode format) ++ blockText block
  text : bytes.drop (2 + block.length * Dictionary.entryHeaderSize) = blockText block
  length : 2 + block.length * Dictionary.entryHeaderSize ≤ bytes.length

theorem encodeEntryBlock_layout (unicode : UnicodeTable) (format : FloatFormat)
    {block : List LearningRecord} (hsmall : block.length ≤ 255) :
    BlockLayout unicode format block (encodeEntryBlock unicode format block) := by
  have hstart : (encodeEntryBlock unicode format block).drop 0 = toLeBytes 2 block.length ++
      (block.flatMap (encodeEntryHeader unicode format) ++ blockText block) := by
    rw [List.drop_zero, encodeEntryBlock, blockText, ← blockRuby]
    simp only [Nat.min_eq_left (hsmall.trans (by decide : 255 ≤ 65535)), List.append_assoc]
  have hheaders := drop_past hstart (toLeBytes_length _ _)
  have htext := drop_past hheaders (flatMap_encodeEntryHeader_length block)
  rw [Nat.zero_add] at hheaders htext
  refine ⟨?_, hheaders, htext, ?_⟩
  · rw [Dictionary.readU16, Dictionary.readField_of_drop (by decide) hstart (toLeBytes_length _ _),
      fromLeBytes_toLeBytes_of_lt (hsmall.trans_lt (by decide))]
  · have hwhole := congrArg List.length hstart
    rw [List.drop_zero, List.length_append, List.length_append, toLeBytes_length,
      flatMap_encodeEntryHeader_length] at hwhole
    omega

theorem parseEntryBlock_encode (unicode : UnicodeTable) (format : FloatFormat)
    {block : List LearningRecord} (hsmall : block.length ≤ 255) :
    ∃ entries, Dictionary.parseEntryBlock format (encodeEntryBlock unicode format block) =
      .ok entries ∧ entries.length = block.length := by
  obtain ⟨hcount, -, htext, hlength⟩ := encodeEntryBlock_layout unicode format hsmall
  obtain ⟨entries, hentries, hentriesLength⟩ := Loop.exists_mapM_ok
    (Dictionary.readEntryHeader format (encodeEntryBlock unicode format block))
    (List.range block.length) fun index hindex => Dictionary.readEntryHeader_ok (by
      have hlt := List.mem_range.mp hindex
      have hle := Nat.mul_le_mul_right Dictionary.entryHeaderSize (Nat.succ_le_of_lt hlt)
      exact (Nat.add_le_add_left hle 2).trans hlength)
  rw [List.length_range] at hentriesLength
  have hfields := lt_splitOn_words (blockRuby block) block (utf8 (blockRuby block))
  rw [← blockText] at hfields
  rw [Dictionary.parseEntryBlock]
  simp only [hcount, Dictionary.requireBytes_ok hlength, hentries, htext, bind, Except.bind,
    if_neg (Nat.not_lt.mpr (Nat.succ_le_of_lt hfields))]
  refine ⟨_, rfl, ?_⟩
  rw [List.length_map, List.length_zip, List.length_take, List.length_tail, hentriesLength]
  omega

/-! ### Shards -/

theorem payloadOffsets_length (offset : Nat) (payloads : List Bytes) :
    (payloadOffsets offset payloads).length = payloads.length := by
  induction payloads generalizing offset with
  | nil => rfl
  | cons payload rest ih => simp [payloadOffsets, ih]

theorem getElem?_payloadOffsets {payloads : List Bytes} {index : Nat} (offset : Nat)
    (h : index < payloads.length) : (payloadOffsets offset payloads)[index]? =
      some (offset + (payloads.take index).flatten.length) := by
  induction payloads generalizing offset index with
  | nil => exact absurd h (Nat.not_lt_zero _)
  | cons payload rest ih =>
    cases index with
    | zero => simp [payloadOffsets]
    | succ index =>
      rw [payloadOffsets, List.getElem?_cons_succ, ih _ (Nat.lt_of_succ_lt_succ h),
        List.take_succ_cons, List.flatten_cons, List.length_append, Nat.add_assoc]

theorem drop_encodeShard {payloads : List Bytes} (hcount : payloads.length ≤ 65535) :
    (encodeShard payloads).drop 0 = toLeBytes 2 payloads.length ++
      (((payloadOffsets (2 + payloads.length * 4) payloads).flatMap fun offset =>
        toLeBytes 4 (min offset 4294967295)) ++ payloads.flatten) := by
  rw [List.drop_zero, encodeShard, Nat.min_eq_left hcount, List.append_assoc]

theorem encodeShard_length {payloads : List Bytes} (hcount : payloads.length ≤ 65535) :
    (encodeShard payloads).length = 2 + payloads.length * 4 + payloads.flatten.length := by
  have htable : ((payloadOffsets (2 + payloads.length * 4) payloads).flatMap fun offset =>
      toLeBytes 4 (min offset 4294967295)).length = payloads.length * 4 := by
    rw [List.flatMap_def, flatten_length_of_blocks 4, List.length_map,
      payloadOffsets_length]
    intro bytes hbytes
    obtain ⟨offset, -, rfl⟩ := List.mem_map.mp hbytes
    exact toLeBytes_length _ _
  have hlength := congrArg List.length (drop_encodeShard hcount)
  rw [List.drop_zero, List.length_append, List.length_append, toLeBytes_length, htable] at hlength
  omega

theorem flatten_take_length_le (payloads : List Bytes) (index : Nat) :
    (payloads.take index).flatten.length ≤ payloads.flatten.length := by
  conv => rhs; rw [← List.take_append_drop index payloads]
  rw [List.flatten_append, List.length_append]
  exact Nat.le_add_right _ _

def payloadStart (payloads : List Bytes) (index : Nat) : Nat :=
  2 + payloads.length * 4 + (payloads.take index).flatten.length

def OffsetsFit (payloads : List Bytes) : Prop :=
  ∀ index < payloads.length, payloadStart payloads index < 256 ^ 4

theorem payloadStart_le {payloads : List Bytes} (hcount : payloads.length ≤ 65535) (index : Nat) :
    payloadStart payloads index ≤ (encodeShard payloads).length := by
  have hbefore := flatten_take_length_le payloads index
  rw [payloadStart, encodeShard_length hcount]
  omega

theorem payloadStart_succ {payloads : List Bytes} {index : Nat} (h : index < payloads.length) :
    payloadStart payloads (index + 1) = payloadStart payloads index + payloads[index].length := by
  rw [payloadStart, payloadStart, List.take_succ_eq_append_getElem h, List.flatten_append,
    List.length_append]
  simp only [List.flatten_cons, List.flatten_nil, List.append_nil]
  omega

theorem payloadStart_length {payloads : List Bytes} (hcount : payloads.length ≤ 65535) :
    payloadStart payloads payloads.length = (encodeShard payloads).length := by
  rw [payloadStart, List.take_length, encodeShard_length hcount]

/-- The offset table holds the starts, the last offset of 32 bits for those beyond it. -/
theorem readOffset_encodeShard {payloads : List Bytes} (hcount : payloads.length ≤ 65535)
    {index : Nat} (h : index < payloads.length) :
    Dictionary.readU32 (encodeShard payloads) (2 + index * 4) "shard block offset" =
      .ok (min (payloadStart payloads index) 4294967295) := by
  have htable := drop_past (drop_encodeShard hcount) (toLeBytes_length _ _)
  obtain ⟨hlt, hvalue⟩ := List.getElem?_eq_some_iff.mp
    (getElem?_payloadOffsets (2 + payloads.length * 4) h)
  rw [← payloadStart] at hvalue
  have hdrop : (encodeShard payloads).drop (2 + index * 4) =
      toLeBytes 4 (min (payloadStart payloads index) 4294967295) ++
        ((((payloadOffsets (2 + payloads.length * 4) payloads).drop (index + 1)).flatMap
          fun offset => toLeBytes 4 (min offset 4294967295)) ++ payloads.flatten) := by
    have hsize : ∀ offset, (toLeBytes 4 (min offset 4294967295)).length = 4 := fun _ =>
      toLeBytes_length _ _
    have hinside : index * 4 ≤ ((payloadOffsets (2 + payloads.length * 4) payloads).flatMap
        fun offset => toLeBytes 4 (min offset 4294967295)).length := by
      rw [List.flatMap_def, flatten_length_of_blocks 4, List.length_map,
        payloadOffsets_length]
      · omega
      · intro bytes hbytes
        obtain ⟨offset, -, rfl⟩ := List.mem_map.mp hbytes
        exact hsize offset
    rw [Nat.zero_add] at htable
    rw [← List.drop_drop, htable, List.drop_append_of_le_length hinside, drop_flatMap hsize,
      List.drop_eq_getElem_cons hlt, List.flatMap_cons, hvalue, List.append_assoc]
  rw [Dictionary.readU32, Dictionary.readField_of_drop (by decide) hdrop (toLeBytes_length _ _),
    fromLeBytes_toLeBytes_of_lt (by omega)]

theorem OffsetsFit.readOffset {payloads : List Bytes} (hfits : OffsetsFit payloads)
    (hcount : payloads.length ≤ 65535) {index : Nat} (h : index < payloads.length) :
    Dictionary.readU32 (encodeShard payloads) (2 + index * 4) "shard block offset" =
      .ok (payloadStart payloads index) := by
  have hlt := hfits index h
  rw [readOffset_encodeShard hcount h, Nat.min_eq_left (by omega)]

theorem drop_encodeShard_payloads {payloads : List Bytes} (hcount : payloads.length ≤ 65535) :
    (encodeShard payloads).drop (2 + payloads.length * 4) = payloads.flatten := by
  have hlength := encodeShard_length hcount
  have hshard := drop_encodeShard hcount
  rw [List.drop_zero, ← List.append_assoc] at hshard
  rw [hshard, List.drop_left']
  have := congrArg List.length hshard
  rw [List.length_append] at this
  omega

theorem drop_payloadStart {payloads : List Bytes} (hcount : payloads.length ≤ 65535) {index : Nat}
    (h : index < payloads.length) : (encodeShard payloads).drop (payloadStart payloads index) =
      payloads[index] ++ (payloads.drop (index + 1)).flatten := by
  have hsplit : payloads.flatten = (payloads.take index).flatten ++ (payloads[index] ++
      (payloads.drop (index + 1)).flatten) := by
    conv => lhs; rw [← List.take_append_drop index payloads, List.drop_eq_getElem_cons h]
    rw [List.flatten_append, List.flatten_cons]
  rw [payloadStart, ← List.drop_drop, drop_encodeShard_payloads hcount, hsplit, List.drop_left]

theorem slice_encodeShard {payloads : List Bytes} (hcount : payloads.length ≤ 65535) {index : Nat}
    (h : index < payloads.length) :
    ((encodeShard payloads).take (payloadStart payloads (index + 1))).drop
      (payloadStart payloads index) = payloads[index] := by
  rw [List.drop_take, drop_payloadStart hcount h, payloadStart_succ h, Nat.add_sub_cancel_left,
    List.take_left]

theorem parseEntrySlot_encodeShard (format : FloatFormat) {payloads : List Bytes}
    (hcount : payloads.length ≤ 65535) (hfits : OffsetsFit payloads) {index : Nat}
    (h : index < payloads.length) :
    Dictionary.parseEntrySlot format (encodeShard payloads) payloads.length index =
      Dictionary.parseEntryBlock format payloads[index] := by
  have hlast : Dictionary.slotEnd (encodeShard payloads) payloads.length index =
      .ok (payloadStart payloads (index + 1)) := by
    rw [Dictionary.slotEnd]
    by_cases hend : index + 1 = payloads.length
    · rw [if_pos hend, hend, payloadStart_length hcount]
    · rw [if_neg hend, hfits.readOffset hcount (by omega)]
  have hordered := payloadStart_succ h
  have hinside := payloadStart_le hcount (index + 1)
  rw [Dictionary.parseEntrySlot, if_neg (Nat.not_le.mpr h), hfits.readOffset hcount h]
  simp only [bind, Except.bind, hlast]
  rw [if_neg (by omega), slice_encodeShard hcount h]

theorem parseEntryShard_singleton (format : FloatFormat) {payloads : List Bytes}
    (hcount : payloads.length ≤ 65535) (index : Nat) :
    parseEntryShard format (encodeShard payloads) [index] =
      Dictionary.parseEntrySlot format (encodeShard payloads) payloads.length index := by
  have hslots : Dictionary.readU16 (encodeShard payloads) 0 "shard slot count" =
      .ok payloads.length := by
    rw [Dictionary.readU16, Dictionary.readField_of_drop (by decide)
      (drop_encodeShard hcount) (toLeBytes_length _ _), fromLeBytes_toLeBytes_of_lt (by omega)]
  have htable : 2 + payloads.length * 4 ≤ (encodeShard payloads).length := by
    rw [encodeShard_length hcount]
    exact Nat.le_add_right _ _
  rw [parseEntryShard, hslots]
  simp only [bind, Except.bind, Dictionary.requireBytes_ok htable, List.mapM_cons, List.mapM_nil]
  cases Dictionary.parseEntrySlot format (encodeShard payloads) payloads.length index with
  | error _ => rfl
  | ok entries => simp [pure, Except.pure]

theorem blocks_le {blocks : List (List LearningRecord)} (hcount : blocks.length ≤ shardSize) :
    (blocks.map (encodeEntryBlock unicode format)).length ≤ 65535 := by
  rw [List.length_map]
  exact hcount.trans (by decide)

theorem parseEntryShard_encode (format : FloatFormat) {blocks : List (List LearningRecord)}
    (hcount : blocks.length ≤ shardSize)
    (hfits : OffsetsFit (blocks.map (encodeEntryBlock unicode format))) {index : Nat}
    (h : index < blocks.length) :
    parseEntryShard format (encodeEntryShard unicode format blocks) [index] =
      Dictionary.parseEntryBlock format (encodeEntryBlock unicode format blocks[index]) := by
  have hindex : index < (blocks.map (encodeEntryBlock unicode format)).length := by
    rwa [List.length_map]
  rw [encodeEntryShard, parseEntryShard_singleton format (blocks_le hcount),
    parseEntrySlot_encodeShard format (blocks_le hcount) hfits hindex, List.getElem_map]

/-! ### The whole directory -/

structure Holds (directory : Directory) (files : EncodedMemory) : Prop where
  louds : directory loudsFile = some files.louds
  characters : directory loudsCharsFile = some files.characters
  metadata : directory metadataFile = some files.metadata
  shards : ∀ index shard, files.shards[index]? = some shard →
    directory (shardFile index) = some shard

structure EncodedMemory.Fits (files : EncodedMemory) : Prop where
  characters : files.characters.length < 256 ^ 4
  shards : ∀ shard ∈ files.shards, shard.length < 256 ^ 4

/-- The number of the nodes and the starts of the blocks fit their four bytes. -/
structure FieldsFit (unicode : UnicodeTable) (format : FloatFormat) (records : List LearningRecord)
    (characterIds : CharacterIdMap) : Prop where
  nodes : (recordBlocks unicode records characterIds).length < 256 ^ 4
  offsets : ∀ blocks ∈ chunks shardSize (recordBlocks unicode records characterIds),
    OffsetsFit (blocks.map (encodeEntryBlock unicode format))

theorem recordBlocks_length (records : List LearningRecord) (characterIds : CharacterIdMap) :
    (recordBlocks unicode records characterIds).length =
      (encodeFiles unicode format records characterIds).characters.length := by
  obtain ⟨-, -, -, hlength⟩ := (MemoryTrie.new unicode records characterIds).encode_parses
  rw [recordBlocks, List.length_map, hlength]
  rfl

theorem EncodedMemory.Fits.fields {records : List LearningRecord} {characterIds : CharacterIdMap}
    (h : (encodeFiles unicode format records characterIds).Fits) :
    FieldsFit unicode format records characterIds := by
  refine ⟨?_, ?_⟩
  · rw [@recordBlocks_length unicode format]
    exact h.characters
  · intro blocks hblocks index _
    have hcount : blocks.length ≤ shardSize := length_of_mem_takeChunks hblocks
    exact (payloadStart_le (blocks_le hcount) index).trans_lt
      (h.shards _ (List.mem_map_of_mem hblocks))

theorem recordBlocks_small {records : List LearningRecord} {characterIds : CharacterIdMap} :
    ∀ block ∈ recordBlocks unicode records characterIds, block.length ≤ 255 := by
  intro block hblock
  obtain ⟨indices, -, rfl⟩ := List.mem_map.mp hblock
  exact (List.length_filterMap_le _ _).trans (List.length_take_le _ _)

theorem getElem?_chunks {blocks : List (List LearningRecord)} {node : Nat}
    {block : List LearningRecord} (h : blocks[node]? = some block) :
    ∃ chunk, (chunks shardSize blocks)[node / shardSize]? = some chunk ∧
      chunk.length ≤ shardSize ∧ chunk[node % shardSize]? = some block := by
  obtain ⟨hlt, -⟩ := List.getElem?_eq_some_iff.mp h
  have hmod := Nat.mod_lt node (show 0 < shardSize by decide)
  have hdiv := Nat.div_add_mod node shardSize
  have hindex : node / shardSize < (blocks.length + shardSize - 1) / shardSize := by
    rw [shardSize] at *
    omega
  refine ⟨_, getElem?_takeChunks hindex, List.length_take_le _ _, ?_⟩
  rw [List.getElem?_take_of_lt hmod, List.getElem?_drop, Nat.mul_comm, hdiv, h]

theorem readEntries_encode {records : List LearningRecord} {characterIds : CharacterIdMap}
    {directory : Directory} (h : Holds directory (encodeFiles unicode format records characterIds))
    (hfits : FieldsFit unicode format records characterIds) {node : Nat}
    {block : List LearningRecord}
    (hblock : (recordBlocks unicode records characterIds)[node]? = some block) :
    ∃ shard, directory (shardFile (node / shardSize)) = some shard ∧
      parseEntryShard format shard [node % shardSize] =
        Dictionary.parseEntryBlock format (encodeEntryBlock unicode format block) := by
  obtain ⟨chunk, hchunk, hsize, hslot⟩ := getElem?_chunks hblock
  have hshard : (encodeFiles unicode format records characterIds).shards[node / shardSize]? =
      some (encodeEntryShard unicode format chunk) := by
    rw [encodeFiles, List.getElem?_map, hchunk]
    rfl
  obtain ⟨hlt, rfl⟩ := List.getElem?_eq_some_iff.mp hslot
  exact ⟨_, h.shards _ _ hshard,
    parseEntryShard_encode format hsize (hfits.offsets _ (List.mem_of_getElem? hchunk)) hlt⟩

theorem nodeReadable_encode {records : List LearningRecord} {characterIds : CharacterIdMap}
    {directory : Directory} (h : Holds directory (encodeFiles unicode format records characterIds))
    (hfits : FieldsFit unicode format records characterIds) {node : Nat}
    {block : List LearningRecord}
    (hblock : (recordBlocks unicode records characterIds)[node]? = some block) :
    NodeReadable format directory node (block.map metadataElement) := by
  obtain ⟨shard, hshard, hparse⟩ := readEntries_encode h hfits hblock
  obtain ⟨entries, hentries, hlength⟩ := parseEntryBlock_encode unicode format
    (recordBlocks_small block (List.mem_of_getElem? hblock))
  refine ⟨shard, hshard, nodeRecords entries (block.map metadataElement), ?_⟩
  rw [readEntries, hparse, hentries]
  simp [hlength]

theorem mainFiles_encode {records : List LearningRecord} {characterIds : CharacterIdMap}
    {directory : Directory} (h : Holds directory (encodeFiles unicode format records characterIds))
    (hfits : (recordBlocks unicode records characterIds).length < 256 ^ 4) :
    MainFiles directory ((recordBlocks unicode records characterIds).map fun block =>
      block.map metadataElement) := by
  obtain ⟨tree, hparse, hnodes, hlength⟩ :=
    (MemoryTrie.new unicode records characterIds).encode_parses
  have hblocks : (recordBlocks unicode records characterIds).length = _ :=
    @recordBlocks_length unicode format records characterIds
  exact ⟨_, _, _, h.metadata, h.louds, h.characters,
    readMetadata_encode hparse hnodes hblocks recordBlocks_small (hblocks ▸ hfits)⟩

theorem decodeDirectory_encodeFiles {records : List LearningRecord}
    {characterIds : CharacterIdMap} {directory : Directory}
    (h : Holds directory (encodeFiles unicode format records characterIds))
    (hfits : (encodeFiles unicode format records characterIds).Fits) :
    ∃ decoded, decodeDirectory format directory = .ok decoded := by
  refine decodeDirectory_ok_iff.mpr (.inr ⟨_, mainFiles_encode h hfits.fields.nodes, ?_⟩)
  intro node block hblock
  rw [List.getElem?_map] at hblock
  obtain ⟨found, hfound, rfl⟩ := Option.map_eq_some_iff.mp hblock
  exact nodeReadable_encode h hfits.fields hfound

/-- What is decoded depends on the encoded files only. -/
theorem decodeDirectory_holds {records : List LearningRecord} {characterIds : CharacterIdMap}
    {first second : Directory}
    (hfirst : Holds first (encodeFiles unicode format records characterIds))
    (hsecond : Holds second (encodeFiles unicode format records characterIds)) :
    decodeDirectory format first = decodeDirectory format second := by
  refine decodeDirectory_congr (hfirst.metadata.trans hsecond.metadata.symm)
    (hfirst.louds.trans hsecond.louds.symm) (hfirst.characters.trans hsecond.characters.symm) ?_
  intro characters hcharacters index hneeded
  obtain rfl := Option.some.inj (hfirst.characters.symm.trans hcharacters)
  have hnode : index * shardSize < (recordBlocks unicode records characterIds).length := by
    rw [@recordBlocks_length unicode format]
    exact hneeded
  obtain ⟨chunk, hchunk, -, -⟩ := getElem?_chunks (List.getElem?_eq_getElem hnode)
  rw [Nat.mul_div_cancel _ (show 0 < shardSize by decide)] at hchunk
  have hshard : (encodeFiles unicode format records characterIds).shards[index]? =
      some (encodeEntryShard unicode format chunk) := by
    rw [encodeFiles, List.getElem?_map, hchunk]
    rfl
  rw [hfirst.shards _ _ hshard, hsecond.shards _ _ hshard]

end BeanKey.Learning
