import BeanKey.Learning.Trip

/-! The records as they come back: in the order of the tree and none lost, exactly when each has
a word and the numbers of the files fit their fields. -/
namespace BeanKey.Learning
open BeanKey.Lattice Packing
open BeanKey.Dictionary (CharacterIdMap FloatFormat)

variable {unicode : UnicodeTable} {format : FloatFormat}

/-! ### Blocks that parse -/

theorem readU16_ok {bytes : Bytes} {context : String} {value : Nat}
    (h : Dictionary.readU16 bytes 0 context = .ok value) :
    2 ≤ bytes.length ∧ fromLeBytes (bytes.take 2) = value := by
  rw [Dictionary.readU16, Dictionary.readField, Dictionary.requireBytes] at h
  by_cases hshort : bytes.length < 0 + 2
  · rw [if_pos hshort] at h
    cases h
  · rw [if_neg hshort] at h
    exact ⟨by omega, Except.ok.inj h⟩

theorem requireBytes_le {bytes : Bytes} {needed : Nat} {context : String}
    (h : Dictionary.requireBytes bytes needed context = .ok ()) : needed ≤ bytes.length := by
  rw [Dictionary.requireBytes] at h
  by_contra hshort
  rw [if_pos (by omega)] at h
  cases h

/-- A block that parses holds its headers, and its first two bytes count its entries. -/
theorem parseEntryBlock_ok {bytes : Bytes} {entries : List DictionaryEntry}
    (h : Dictionary.parseEntryBlock format bytes = .ok entries) :
    2 + entries.length * Dictionary.entryHeaderSize ≤ bytes.length ∧
      fromLeBytes (bytes.take 2) = entries.length := by
  rw [Dictionary.parseEntryBlock] at h
  cases hcount : Dictionary.readU16 bytes 0 "entry count" with
  | error _ => simp [hcount, bind, Except.bind] at h
  | ok count =>
    cases hrequire : Dictionary.requireBytes bytes (2 + count * Dictionary.entryHeaderSize)
        "entry headers" with
    | error _ => simp [hcount, hrequire, bind, Except.bind] at h
    | ok _ =>
      cases hheaders : (List.range count).mapM (Dictionary.readEntryHeader format bytes) with
      | error _ => simp [hcount, hrequire, hheaders, bind, Except.bind] at h
      | ok headers =>
        have hlength := (Loop.forall₂_of_mapM_ok hheaders).length_eq
        rw [List.length_range] at hlength
        simp only [hcount, hrequire, hheaders, bind, Except.bind] at h
        split at h
        · cases h
        · next hfields =>
          obtain rfl := Except.ok.inj h
          have hentries : count = (headers.zip (((bytes.drop (2 + count *
              Dictionary.entryHeaderSize)).splitOn 9).tail.take count)).length := by
            rw [List.length_zip, List.length_take, List.length_tail, ← hlength]
            omega
          rw [List.length_map, ← hentries]
          exact ⟨requireBytes_le hrequire, (readU16_ok hcount).2⟩

def slotBytes (payloads : List Bytes) (index : Nat) : Bytes :=
  ((encodeShard payloads).take (if index + 1 = payloads.length then (encodeShard payloads).length
    else min (payloadStart payloads (index + 1)) 4294967295)).drop
      (min (payloadStart payloads index) 4294967295)

theorem parseEntrySlot_ok {payloads : List Bytes} (hcount : payloads.length ≤ 65535) {index : Nat}
    (hindex : index < payloads.length) {entries : List DictionaryEntry}
    (h : Dictionary.parseEntrySlot format (encodeShard payloads) payloads.length index =
      .ok entries) : Dictionary.parseEntryBlock format (slotBytes payloads index) =
        .ok entries := by
  have hlast : Dictionary.slotEnd (encodeShard payloads) payloads.length index =
      .ok (if index + 1 = payloads.length then (encodeShard payloads).length
        else min (payloadStart payloads (index + 1)) 4294967295) := by
    rw [Dictionary.slotEnd]
    split
    · rfl
    · rw [readOffset_encodeShard hcount (by omega)]
  rw [Dictionary.parseEntrySlot, if_neg (Nat.not_le.mpr hindex),
    readOffset_encodeShard hcount hindex] at h
  simp only [bind, Except.bind, hlast] at h
  generalize hend : (if index + 1 = payloads.length then (encodeShard payloads).length
    else min (payloadStart payloads (index + 1)) 4294967295) = last at h
  by_cases hinside : last < min (payloadStart payloads index) 4294967295 ∨
      (encodeShard payloads).length < last
  · rw [if_pos hinside] at h
    cases h
  · rw [if_neg hinside] at h
    rw [slotBytes, hend]
    exact h

/-! ### Offsets beyond their field -/

section
variable {payloads : List Bytes} (hcount : payloads.length ≤ 65535) {index : Nat}
  (hindex : index + 1 < payloads.length) (hstart : payloadStart payloads index ≤ 4294967295)
  (hnext : 4294967295 < payloadStart payloads (index + 1))
include hcount hindex hstart hnext

theorem slotBytes_cut : slotBytes payloads index =
    payloads[index].take (4294967295 - payloadStart payloads index) := by
  have hlength := payloadStart_succ (Nat.lt_of_succ_lt hindex)
  rw [slotBytes, if_neg (by omega), Nat.min_eq_left hstart, Nat.min_eq_right hnext.le,
    List.drop_take, drop_payloadStart hcount (Nat.lt_of_succ_lt hindex),
    List.take_append_of_le_length (by omega)]

theorem slotBytes_last (hlast : index + 1 + 1 = payloads.length) : slotBytes payloads (index + 1) =
    payloads[index].drop (4294967295 - payloadStart payloads index) ++ payloads[index + 1] := by
  have hlength := payloadStart_succ (Nat.lt_of_succ_lt hindex)
  have hrest : (payloads.drop (index + 1)).flatten = payloads[index + 1] := by
    rw [List.drop_eq_getElem_cons hindex, List.drop_eq_nil_of_le (by omega)]
    simp
  have hwhole : 4294967295 = payloadStart payloads index +
      (4294967295 - payloadStart payloads index) := by omega
  rw [slotBytes, if_pos hlast, List.take_length, Nat.min_eq_right hnext.le]
  conv_lhs => rw [hwhole]
  rw [← List.drop_drop, drop_payloadStart hcount (Nat.lt_of_succ_lt hindex), hrest,
    List.drop_append_of_le_length (by omega)]

end

/-- A slot between two offsets that are too large is empty. -/
theorem slotBytes_between {payloads : List Bytes} {index : Nat}
    (hmore : index + 1 < payloads.length) (hstart : 4294967295 < payloadStart payloads index) :
    slotBytes payloads index = [] := by
  have hlength := payloadStart_succ (Nat.lt_of_succ_lt hmore)
  rw [slotBytes, if_neg (by omega), Nat.min_eq_right hstart.le, Nat.min_eq_right (by omega)]
  exact List.drop_eq_nil_of_le (List.length_take_le _ _)

theorem zero_not_mem_blockText {block : List LearningRecord}
    (h : ∀ record ∈ block, Storable record.entry) : (0 : UInt8) ∉ blockText block := by
  have hprintable : ∀ {value : Text}, value.any isControl = false → (0 : UInt8) ∉ utf8 value :=
    fun hvalue hin => absurd (utf8_printable hvalue _ hin) (by decide)
  intro hin
  cases List.mem_append.mp hin with
  | inl hruby =>
    cases block with
    | nil => exact absurd hruby List.not_mem_nil
    | cons record rest => exact hprintable (h record List.mem_cons_self).ruby hruby
  | inr hwords =>
    obtain ⟨record, hrecord, hword⟩ := List.mem_flatMap.mp hwords
    cases List.mem_cons.mp hword with
    | inl htab => exact absurd htab (by decide)
    | inr hword =>
      by_cases hself : record.entry.word = blockRuby block
      · rw [if_pos hself] at hword
        exact absurd hword List.not_mem_nil
      · rw [if_neg hself] at hword
        exact hprintable (h record hrecord).word hword

/-- A block that starts with the text of the block before it does not count right. -/
theorem count_ne_of_text {block : List LearningRecord} (hsmall : block.length ≤ 255) {text : Bytes}
    (hne : text ≠ []) (hzero : (0 : UInt8) ∉ text) :
    fromLeBytes ((text ++ encodeEntryBlock unicode format block).take 2) ≠ block.length := by
  have hpositive : ∀ byte ∈ text, 0 < byte.toNat := by
    intro byte hin
    refine Nat.pos_of_ne_zero fun hbyte => hzero ?_
    have : byte = 0 := UInt8.toNat_inj.mp hbyte
    exact this ▸ hin
  have hcount : (UInt8.ofNat block.length).toNat = block.length := by
    rw [UInt8.toNat_ofNat', Nat.mod_eq_of_lt (by omega)]
  cases text with
  | nil => exact absurd rfl hne
  | cons first rest =>
    have hfirst := hpositive first List.mem_cons_self
    cases rest with
    | nil =>
      have htake : ([first] ++ encodeEntryBlock unicode format block).take 2 =
          [first, UInt8.ofNat block.length] := by
        simp only [encodeEntryBlock, toLeBytes, Nat.min_eq_left (hsmall.trans (by decide :
          255 ≤ 65535)), List.cons_append, List.nil_append, List.take_succ_cons, List.take_zero]
      rw [htake, fromLeBytes, fromLeBytes, fromLeBytes, hcount]
      omega
    | cons second rest =>
      have hsecond := hpositive second (List.mem_cons_of_mem _ List.mem_cons_self)
      rw [List.cons_append, List.cons_append, List.take_succ_cons, List.take_succ_cons,
        List.take_zero, fromLeBytes, fromLeBytes, fromLeBytes]
      omega

section
variable {blocks : List (List LearningRecord)}

def SlotsReadable (unicode : UnicodeTable) (format : FloatFormat)
    (blocks : List (List LearningRecord)) : Prop :=
  ∀ index block, blocks[index]? = some block → ∃ entries,
    Dictionary.parseEntrySlot format (encodeEntryShard unicode format blocks) blocks.length index =
      .ok entries ∧ entries.length = block.length

/-- After a start that fits its field comes one that fits, if both slots are readable. -/
theorem SlotsReadable.start_fits (h : SlotsReadable unicode format blocks)
    (hcount : blocks.length ≤ shardSize) (hsmall : ∀ block ∈ blocks, block.length ≤ 255)
    (hstorable : ∀ block ∈ blocks, ∀ record ∈ block, Storable record.entry) {index : Nat}
    (hindex : index + 1 < blocks.length)
    (hfits : payloadStart (blocks.map (encodeEntryBlock unicode format)) index < 256 ^ 4) :
    payloadStart (blocks.map (encodeEntryBlock unicode format)) (index + 1) < 256 ^ 4 := by
  by_contra hlarge
  generalize hpayloads : blocks.map (encodeEntryBlock unicode format) = payloads at hfits hlarge
  have hlength : payloads.length = blocks.length := by rw [← hpayloads, List.length_map]
  have hle : payloads.length ≤ 65535 := hpayloads ▸ blocks_le hcount
  have hinside : index + 1 < payloads.length := by omega
  have hstart : payloadStart payloads index ≤ 4294967295 := by omega
  have hnext : 4294967295 < payloadStart payloads (index + 1) := by omega
  have hslot : ∀ place block, blocks[place]? = some block →
      2 + block.length * Dictionary.entryHeaderSize ≤ (slotBytes payloads place).length ∧
        fromLeBytes ((slotBytes payloads place).take 2) = block.length := by
    intro place block hblock
    obtain ⟨entries, hparse, hentries⟩ := h place block hblock
    have hplace := (List.getElem?_eq_some_iff.mp hblock).1
    rw [encodeEntryShard, hpayloads, ← hlength] at hparse
    rw [← hentries]
    exact parseEntryBlock_ok (parseEntrySlot_ok hle (by omega) hparse)
  have hblock := hsmall _ (List.getElem_mem (Nat.lt_of_succ_lt hindex))
  have hother := hsmall _ (List.getElem_mem hindex)
  obtain ⟨hheaders, -⟩ := hslot index _ (List.getElem?_eq_getElem (Nat.lt_of_succ_lt hindex))
  obtain ⟨hlong, hcounted⟩ := hslot (index + 1) _ (List.getElem?_eq_getElem hindex)
  by_cases hmore : index + 1 + 1 < payloads.length
  · rw [slotBytes_between hmore hnext] at hlong
    simp at hlong
  · have hstep := payloadStart_succ (Nat.lt_of_succ_lt hinside)
    have hpayload : payloads[index] = encodeEntryBlock unicode format blocks[index] := by
      simp only [← hpayloads, List.getElem_map]
    have hpayload' : payloads[index + 1] = encodeEntryBlock unicode format blocks[index + 1] := by
      simp only [← hpayloads, List.getElem_map]
    rw [slotBytes_cut hle hinside hstart hnext, List.length_take] at hheaders
    rw [slotBytes_last hle hinside hstart hnext (by omega), hpayload, hpayload'] at hcounted
    have htext := (encodeEntryBlock_layout unicode format hblock).text
    refine count_ne_of_text hother ?_ ?_ hcounted
    · refine List.ne_nil_of_length_pos ?_
      rw [List.length_drop, ← hpayload]
      omega
    · intro hin
      refine zero_not_mem_blockText (hstorable _ (List.getElem_mem (Nat.lt_of_succ_lt hindex))) ?_
      rw [← htext]
      exact List.drop_subset_drop_left _ (by omega) hin

theorem SlotsReadable.offsetsFit (h : SlotsReadable unicode format blocks)
    (hcount : blocks.length ≤ shardSize) (hsmall : ∀ block ∈ blocks, block.length ≤ 255)
    (hstorable : ∀ block ∈ blocks, ∀ record ∈ block, Storable record.entry) :
    OffsetsFit (blocks.map (encodeEntryBlock unicode format)) := by
  intro index hindex
  rw [List.length_map] at hindex
  induction index with
  | zero =>
    rw [payloadStart, List.length_map, List.take_zero, List.flatten_nil, List.length_nil]
    rw [shardSize] at hcount
    omega
  | succ index ih =>
    exact h.start_fits hcount hsmall hstorable hindex (ih (Nat.lt_of_succ_lt hindex))

end

/-! ### Fields that fit -/

theorem nodes_fit {metadata louds characters : Bytes} {blocks : List (List LearningRecord)}
    (hmetadata : metadata = encodeMetadata blocks) (hblocks : blocks.length = characters.length)
    {found : List (List MetadataElement)} (h : readMetadata metadata louds characters = .ok found) :
    blocks.length < 256 ^ 4 := by
  by_contra hlarge
  have hmin : min blocks.length 4294967295 = 4294967295 := by omega
  have hstart : metadata.drop 0 = toLeBytes 4 4294967295 ++ blocks.flatMap encodeMetadataBlock := by
    rw [List.drop_zero, hmetadata, encodeMetadata, hmin]
  have hcount : readArray 4 metadata 0 = .ok 4294967295 := by
    rw [readArray_of_drop (by decide) hstart (toLeBytes_length _ _),
      fromLeBytes_toLeBytes_of_lt (by decide)]
  rw [readMetadata] at h
  cases hparse : Dictionary.Louds.parse louds characters with
  | error _ => simp [hparse] at h
  | ok tree =>
    have hne : 4294967295 ≠ characters.length := by omega
    simp [hparse, hcount, hne, bind, Except.bind] at h

section
variable {records : List LearningRecord} {characterIds : CharacterIdMap} {directory : Directory}
  {decoded : List LearningRecord}

theorem slotsReadable_chunk
    (h : Holds directory (encodeFiles unicode format records characterIds))
    (hreadable : ∀ node block, (recordBlocks unicode records characterIds)[node]? = some block →
      NodeReadable format directory node (block.map metadataElement))
    {place : Nat} {blocks : List (List LearningRecord)}
    (hplace : (chunks shardSize (recordBlocks unicode records characterIds))[place]? =
      some blocks) :
    SlotsReadable unicode format blocks := by
  have hcount : blocks.length ≤ shardSize := length_of_mem_takeChunks (List.mem_of_getElem? hplace)
  have hshard : directory (shardFile place) = some (encodeEntryShard unicode format blocks) := by
    refine h.shards place _ ?_
    rw [encodeFiles, List.getElem?_map, hplace]
    rfl
  intro index block hblock
  obtain ⟨hsmall, hnode⟩ := getElem?_of_chunk hplace hblock
  obtain ⟨shard, hfile, found, hfound⟩ := hreadable _ _ hnode
  have hdiv : (place * shardSize + index) / shardSize = place := by
    rw [Nat.mul_comm, Nat.mul_add_div (by decide), Nat.div_eq_of_lt hsmall, Nat.add_zero]
  have hmod : (place * shardSize + index) % shardSize = index := by
    rw [Nat.mul_comm, Nat.mul_add_mod, Nat.mod_eq_of_lt hsmall]
  rw [hdiv, hshard] at hfile
  obtain rfl := Option.some.inj hfile
  rw [readEntries, hmod, encodeEntryShard, parseEntryShard_singleton format (blocks_le hcount),
    List.length_map] at hfound
  rw [encodeEntryShard]
  cases hslot : Dictionary.parseEntrySlot format _ _ index with
  | error _ =>
    rw [hslot] at hfound
    cases hfound
  | ok entries =>
    rw [hslot, List.length_map] at hfound
    refine ⟨entries, rfl, ?_⟩
    by_contra hne
    simp only [ne_eq, hne, not_false_eq_true, if_true] at hfound
    cases hfound

/-- What is decoded from the saved files tells that their numbers fit. -/
theorem fieldsFit_of_decodes
    (h : Holds directory (encodeFiles unicode format records characterIds))
    (hstorable : ∀ record ∈ records, Storable record.entry)
    (hdecoded : decodeDirectory format directory = .ok decoded) :
    FieldsFit unicode format records characterIds := by
  have hnodes : (recordBlocks unicode records characterIds).length < 256 ^ 4 := by
    cases decodeDirectory_ok_iff.mp ⟨decoded, hdecoded⟩ with
    | inl hnone =>
      rw [h.metadata] at hnone
      cases hnone
    | inr hmain =>
      obtain ⟨found, ⟨metadata, louds, characters, hmetadata, -, hcharacters, hread⟩, -⟩ := hmain
      obtain rfl := Option.some.inj (h.metadata.symm.trans hmetadata)
      obtain rfl := Option.some.inj (h.characters.symm.trans hcharacters)
      exact nodes_fit rfl (recordBlocks_length records characterIds) hread
  rw [decodeDirectory_of_main (mainFiles_encode h hnodes)] at hdecoded
  have hreadable : ∀ node block, (recordBlocks unicode records characterIds)[node]? = some block →
      NodeReadable format directory node (block.map metadataElement) := by
    intro node block hblock
    have hnode := (readRecords_ok_iff format loaded_none 0 _).mp ⟨decoded, hdecoded⟩ node
      (block.map metadataElement) (by rw [List.getElem?_map, hblock]; rfl)
    rwa [Nat.zero_add] at hnode
  refine ⟨hnodes, ?_⟩
  intro blocks hin
  obtain ⟨place, hplace⟩ := List.mem_iff_getElem?.mp hin
  have hsub : ∀ block ∈ blocks, block ∈ recordBlocks unicode records characterIds := by
    intro block hblock
    obtain ⟨index, hindex⟩ := List.mem_iff_getElem?.mp hblock
    exact List.mem_of_getElem? (getElem?_of_chunk hplace hindex).2
  refine (slotsReadable_chunk h hreadable hplace).offsetsFit (length_of_mem_takeChunks hin) ?_ ?_
  · exact fun block hblock => recordBlocks_small block (hsub block hblock)
  · exact fun block hblock record hrecord =>
      hstorable record ((of_mem_recordBlocks (hsub block hblock)).1 hrecord)

/-! ### Records in the order of the tree -/

/-- Readings with fewer characters come first, then those with the smaller identifier where
they first differ. -/
def ReadingsOrdered (unicode : UnicodeTable) (characterIds : CharacterIdMap)
    (readings : List Text) : Prop :=
  readings.Pairwise fun first second => ∀ ids others,
    characterIds.encode unicode first = some ids →
      characterIds.encode unicode second = some others →
      List.Shortlex (· < ·) ids others

/-- The same records, reading by reading and in their own order within one. -/
structure RestoredAs (unicode : UnicodeTable) (characterIds : CharacterIdMap)
    (records decoded : List LearningRecord) (readings : List Text) : Prop where
  ordered : ReadingsOrdered unicode characterIds readings
  complete : ∀ ruby, ruby ∈ readings ↔ ∃ record ∈ records, record.entry.ruby = ruby
  same : decoded.map LearningRecord.essence =
    (readings.flatMap fun ruby => records.filter fun record => record.entry.ruby = ruby).map
      LearningRecord.essence

def readingOf (unicode : UnicodeTable) (characterIds : CharacterIdMap)
    (records : List LearningRecord) (ids : List UInt8) : Option Text :=
  (records.find? fun record => characterIds.encode unicode record.entry.ruby = some ids).map
    fun record => record.entry.ruby

theorem readingOf_eq_some {ids : List UInt8} {ruby : Text} :
    readingOf unicode characterIds records ids = some ruby ↔
      characterIds.encode unicode ruby = some ids ∧ ∃ record ∈ records,
        record.entry.ruby = ruby := by
  constructor
  · intro h
    obtain ⟨record, hfound, rfl⟩ := Option.map_eq_some_iff.mp h
    have hids : characterIds.encode unicode record.entry.ruby = some ids := by
      simpa using List.find?_some hfound
    exact ⟨hids, record, List.mem_of_find?_eq_some hfound, rfl⟩
  · rintro ⟨hids, record, hin, rfl⟩
    cases hfound : records.find? fun other =>
        characterIds.encode unicode other.entry.ruby = some ids with
    | none => exact absurd hids (by simpa using List.find?_eq_none.mp hfound record hin)
    | some other =>
      have hother : characterIds.encode unicode other.entry.ruby = some ids := by
        simpa using List.find?_some hfound
      rw [readingOf, hfound, Option.map_some, CharacterIdMap.encode_injective hother hids]

theorem filter_encode_eq (ids : List UInt8) : (records.filter fun record =>
      characterIds.encode unicode record.entry.ruby = some ids) =
    (readingOf unicode characterIds records ids).toList.flatMap fun ruby =>
      records.filter fun record => record.entry.ruby = ruby := by
  cases hruby : readingOf unicode characterIds records ids with
  | none =>
    rw [Option.toList_none, List.flatMap_nil, List.filter_eq_nil_iff]
    intro record hin hids
    rw [readingOf, Option.map_eq_none_iff, List.find?_eq_none] at hruby
    exact hruby record hin hids
  | some ruby =>
    obtain ⟨hids, -⟩ := readingOf_eq_some.mp hruby
    rw [Option.toList_some, List.flatMap_singleton]
    refine List.filter_congr fun record _ => ?_
    simp only [decide_eq_decide]
    constructor
    · exact fun hrecord => CharacterIdMap.encode_injective hrecord hids
    · rintro rfl
      exact hids

/-- The saved blocks are the records of each reading, in the order of the readings. -/
theorem exists_readings
    (hvalid : ∀ record ∈ records, validLearningEntry unicode record.entry characterIds = true)
    (hfew : FewRecords records) : ∃ readings : List Text,
      ReadingsOrdered unicode characterIds readings ∧
      (∀ ruby, ruby ∈ readings ↔ ∃ record ∈ records, record.entry.ruby = ruby) ∧
      (recordBlocks unicode records characterIds).flatten =
        readings.flatMap fun ruby => records.filter fun record => record.entry.ruby = ruby := by
  obtain ⟨paths, hordered, -, hall, hblocks⟩ := recordBlocks_eq unicode records characterIds
  refine ⟨paths.filterMap (readingOf unicode characterIds records), ?_, ?_, ?_⟩
  · refine List.pairwise_filterMap.mpr (hordered.imp ?_)
    intro path other hbefore first hfirst second hsecond ids others hids hothers
    obtain ⟨hpath, -⟩ := readingOf_eq_some.mp hfirst
    obtain ⟨hother, -⟩ := readingOf_eq_some.mp hsecond
    obtain rfl := Option.some.inj (hpath.symm.trans hids)
    obtain rfl := Option.some.inj (hother.symm.trans hothers)
    exact hbefore
  · intro ruby
    rw [List.mem_filterMap]
    constructor
    · rintro ⟨ids, -, hruby⟩
      exact (readingOf_eq_some.mp hruby).2
    · rintro ⟨record, hin, rfl⟩
      obtain ⟨ids, hids⟩ := encode_of_valid (hvalid record hin)
      exact ⟨ids, hall record hin ids
        (encode_ne_nil (ruby_ne_nil_of_valid (hvalid record hin)) hids)
        hids, readingOf_eq_some.mpr ⟨hids, record, hin, rfl⟩⟩
  · rw [hblocks]
    simp only [List.flatten_cons, List.nil_append, take_filter_encode hfew]
    rw [← List.flatMap_def]
    simp only [filter_encode_eq]
    rw [List.filterMap_eq_flatMap_toList, List.flatMap_assoc]

theorem word_stored {record : LearningRecord} (h : record.entry.ruby ≠ []) :
    (storedRecord unicode format record).entry.word ≠ [] := by
  rw [storedRecord, storedEntry]
  split
  · exact h
  · assumption

/-- Records that come back as they were have words. -/
theorem RestoredAs.words {saved : List LearningRecord} {readings : List Text}
    (h : RestoredAs unicode characterIds records (saved.map (storedRecord unicode format)) readings)
    (hruby : ∀ record ∈ saved, record.entry.ruby ≠ []) :
    ∀ record ∈ records, record.entry.word ≠ [] := by
  intro record hin hword
  have hback : record.essence ∈
      (saved.map (storedRecord unicode format)).map LearningRecord.essence := by
    rw [h.same]
    refine List.mem_map_of_mem (List.mem_flatMap.mpr ⟨record.entry.ruby, ?_, ?_⟩)
    · exact (h.complete _).mpr ⟨record, hin, rfl⟩
    · exact List.mem_filter.mpr ⟨hin, decide_eq_true rfl⟩
  obtain ⟨stored, hstored, hessence⟩ := List.mem_map.mp hback
  obtain ⟨source, hsource, rfl⟩ := List.mem_map.mp hstored
  have hwords : (storedRecord unicode format source).essence.entry.word =
      record.essence.entry.word := by rw [hessence]
  exact @word_stored unicode format source (hruby source hsource) (hwords.trans hword)

/-- Records that the store can hold come back from their files exactly when each has a word
and the numbers of the files fit their fields. -/
theorem decode_restores (hvalid : ∀ record ∈ records,
      validLearningEntry unicode record.entry characterIds = true ∧ IsWord16 record.entry)
    (hfew : FewRecords records)
    (h : Holds directory (encodeFiles unicode format records characterIds)) :
    (∃ decoded readings, decodeDirectory format directory = .ok decoded ∧
      RestoredAs unicode characterIds records decoded readings) ↔
    (∀ record ∈ records, record.entry.word ≠ []) ∧
      FieldsFit unicode format records characterIds := by
  have hstorable : ∀ record ∈ records, Storable record.entry := fun record hin =>
    storable_of_valid (hvalid record hin).1 (hvalid record hin).2
  obtain ⟨order, hordered, hcomplete, hblocks⟩ :=
    exists_readings (fun record hin => (hvalid record hin).1) hfew
  have hsub : ∀ record ∈ (recordBlocks unicode records characterIds).flatten, record ∈ records := by
    intro record hin
    rw [hblocks] at hin
    obtain ⟨ruby, -, hfilter⟩ := List.mem_flatMap.mp hin
    exact List.mem_of_mem_filter hfilter
  constructor
  · rintro ⟨decoded, readings, hdecoded, hrestored⟩
    have hfits := fieldsFit_of_decodes h hstorable hdecoded
    rw [decodeDirectory_stored h hfits hstorable] at hdecoded
    obtain rfl := Except.ok.inj hdecoded
    exact ⟨hrestored.words fun record hin =>
      ruby_ne_nil_of_valid (hvalid record (hsub record hin)).1, hfits⟩
  · rintro ⟨hwords, hfits⟩
    refine ⟨_, order, decodeDirectory_stored h hfits hstorable, hordered, hcomplete, ?_⟩
    rw [← hblocks, List.map_map]
    exact List.map_congr_left fun record hin =>
      storedRecord_essence (hwords record (hsub record hin))

end

theorem valid_kana {word : Text} (hword : word.any isControl = false) :
    validLearningEntry .kana (kanaRecord word).entry (learnedState []).characterIds = true ∧
      IsWord16 (kanaRecord word).entry := by
  have hids : ((learnedState []).characterIds.encode .kana ['ア']).isSome := by decide +kernel
  have hencode :
      ((learnedState []).characterIds.encode .kana (kanaRecord word).entry.ruby).isSome :=
    hids
  refine ⟨?_, isWord16_kana word _ (List.mem_singleton.mpr rfl)⟩
  rw [validLearningEntry, hencode]
  have hplain : (kanaRecord word).entry.word.any isControl = false := hword
  rw [hplain]
  rfl

def threeRecords : List LearningRecord :=
  [kanaRecord ['亜'], kanaRecord ['阿'],
    ⟨{ kanaEntry ['亜', '胃'] with ruby := ['ア', 'ア'], baseValue := -20 }, 0, 0, 2⟩]

/-- Records with words come back. -/
theorem decode_restores_three : ∃ directory decoded readings,
    Holds directory (encodeFiles .kana sampleFormat threeRecords (learnedState []).characterIds) ∧
      decodeDirectory sampleFormat directory = .ok decoded ∧
        RestoredAs .kana (learnedState []).characterIds threeRecords decoded readings := by
  obtain ⟨directory, -, hpublished⟩ := runAll_saveSteps (encodeFiles .kana sampleFormat
    threeRecords (learnedState []).characterIds) fun _ => none
  have hfits : (encodeFiles .kana sampleFormat threeRecords (learnedState []).characterIds).Fits :=
    ⟨by decide +kernel, by decide +kernel⟩
  have hvalid : ∀ record ∈ threeRecords, validLearningEntry .kana record.entry
      (learnedState []).characterIds = true ∧ IsWord16 record.entry := by
    intro record hin
    simp only [threeRecords, List.mem_cons, List.not_mem_nil, or_false] at hin
    obtain rfl | rfl | rfl := hin
    · exact valid_kana (by decide)
    · exact valid_kana (by decide)
    · exact ⟨by decide +kernel, by decide, by decide, by decide⟩
  have hfew : FewRecords threeRecords := fun ruby =>
    (List.length_filter_le _ _).trans (by decide)
  obtain ⟨decoded, readings, hdecoded, hrestored⟩ :=
    (decode_restores hvalid hfew hpublished.holds).mpr ⟨by decide, hfits.fields⟩
  exact ⟨directory, decoded, readings, hpublished.holds, hdecoded, hrestored⟩

/-- A record with an empty word does not. -/
theorem wordless_not_restored : ∃ directory,
    (∀ record ∈ [reading, wordless], validLearningEntry .kana record.entry
      (learnedState []).characterIds = true ∧ IsWord16 record.entry) ∧
    FewRecords [reading, wordless] ∧
    Holds directory (encodeFiles .kana sampleFormat [reading, wordless]
      (learnedState []).characterIds) ∧
    ¬∃ decoded readings, decodeDirectory sampleFormat directory = .ok decoded ∧
      RestoredAs .kana (learnedState []).characterIds [reading, wordless] decoded readings := by
  obtain ⟨directory, -, hpublished⟩ := runAll_saveSteps (encodeFiles .kana sampleFormat
    [reading, wordless] (learnedState []).characterIds) fun _ => none
  refine ⟨directory, ?_, fun ruby => (List.length_filter_le _ _).trans (by decide),
    hpublished.holds, ?_⟩
  · intro record hin
    simp only [List.mem_cons, List.not_mem_nil, or_false] at hin
    obtain rfl | rfl := hin
    · exact valid_kana (by decide)
    · exact valid_kana (by decide)
  · rintro ⟨decoded, readings, hdecoded, hrestored⟩
    rw [decodeDirectory_wordless hpublished.holds] at hdecoded
    obtain rfl := Except.ok.inj hdecoded
    exact hrestored.words (by decide) wordless (by simp) rfl

end BeanKey.Learning
