import Vyrn.Wal.Record

/-!
# Segment files

The log is a directory of numbered segment files: a 32-byte header (magic, version, segment id,
first LSN, checksum), the records, and a runway of zeros that the writer lays ahead of itself.
Recovery reads the segments in order: a sealed segment ends where the header of its successor says,
the active one at the first frame that was not written whole.

Main results: `replayFrom_pass`, `replaySegment_file`.
-/

namespace Vyrn

open ByteString List

namespace Wal

variable {head : Bytes}

/-! ## The code -/

def segmentMagic : Bytes := [86, 83, 69, 71]

def segmentHeaderLen : Nat := 32

/-- A segment header without its checksum. -/
def segmentHead (segmentId firstLsn : Nat) : Bytes :=
  segmentMagic ++ [version, 0, 0, 0] ++ packed [(8, segmentId), (8, firstLsn)]

def segmentHeader (segmentId firstLsn : Nat) : Bytes :=
  segmentHead segmentId firstLsn ++ toBE 4 (checksum (segmentHead segmentId firstLsn)) ++
    [0, 0, 0, 0]

/-- The first LSN of a segment, from its header. -/
def readSegmentFirstLsn (file : Bytes) : Except Error Nat :=
  if file.length < segmentHeaderLen then .error (.io "failed to fill whole buffer")
  else
    let header := file.take segmentHeaderLen
    if header.take 4 ≠ segmentMagic ∨ slice header 4 1 ≠ [version] ∨
        checksum (header.take 24) ≠ fromBE (slice header 24 4) then
      .error (.corruptWal (fromBE (slice header 8 8)) 0 "invalid segment header")
    else .ok (fromBE (slice header 16 8))

def zeros (n : Nat) : Bytes := replicate n 0

/-- One past the last byte a writer touched. -/
def lastWrittenByte (file : Bytes) : Nat :=
  max segmentHeaderLen (file.length - (file.reverse.takeWhile (fun byte => byte = 0)).length)

/-- What a frame that was not written whole means: the end of the active segment, and damage in a
    sealed one. -/
def truncateOrCorrupt (isLast : Bool) (segment offset : Nat) : Except Error Unit :=
  if isLast then .ok ()
  else .error (.corruptWal segment offset "incomplete transaction in sealed segment")

/-- What a frame that does not parse means: a header of zeros never reached the disk. -/
def stopAtTornRecord (isLast : Bool) (segment offset : Nat) (header : Bytes) (reason : String) :
    Except Error Unit :=
  if isLast ∧ header.all (fun byte => byte = 0) then truncateOrCorrupt true segment offset
  else .error (.corruptWal segment offset reason)

/-- What stands at the next offset of a segment. -/
inductive Frame where
  | torn
  | whole (record : WalRecord) (total : Nat)

/-- Reads the frame at `offset`, where `rest` begins. -/
def readFrame (segment : Nat) (isLast : Bool) (writtenThrough offset : Nat) (rest : Bytes) :
    Except Error Frame := do
  if rest.length < recordHeaderLen ∨ writtenThrough < offset + recordHeaderLen then
    truncateOrCorrupt isLast segment offset
    return .torn
  let bytes := rest.take recordHeaderLen
  if bytes.take 4 ≠ recordMagic ∨ !recordVersionKnown bytes then
    stopAtTornRecord isLast segment offset bytes "invalid transaction header"
    return .torn
  if !recordHeaderCrcOk bytes then
    throw (.corruptWal segment offset "transaction header checksum mismatch")
  let header := Header.read bytes
  if header.operationCount = 0 ∨ header.payloadLen < header.operationCount * opHeaderLen then
    throw (.corruptWal segment offset "invalid transaction metadata")
  let total := totalLen header.payloadLen
  if rest.length < total ∨ writtenThrough < offset + total then
    truncateOrCorrupt isLast segment offset
    return .torn
  let payload := slice rest recordHeaderLen header.payloadLen
  let footer := slice rest (recordHeaderLen + header.payloadLen) recordFooterLen
  match validatePayload payload header.operationCount with
  | .error reason => throw (.corruptWal segment offset reason)
  | .ok () =>
    if fromBE (footer.take 4) ≠ total ∨ footer.drop 4 ≠ recordEnd ∨
        transactionChecksum header.lsn header.operationCount payload header.root header.len ≠
          header.expectedChecksum then
      throw (.corruptWal segment offset "transaction checksum or footer mismatch")
    return .whole ⟨header.lsn, decodeOperations header.operationCount payload, header.root,
      header.len⟩ total

/-- What recovery has read so far. -/
structure Recovered where
  state : TreeState
  redo : List WalRecord
  deriving DecidableEq, Repr

/-- A record that recovery has not seen yet becomes the newest one. -/
def Recovered.add (recovered : Recovered) (record : WalRecord) : Recovered :=
  if recovered.state.lsn < record.lsn then
    ⟨⟨record.root, record.len, record.lsn⟩, recovered.redo ++ [record]⟩
  else recovered

/-- The records from `offset` on, where `rest` begins; returns where they end and whether a torn
    record follows. Every turn passes a record, so the length of the file is fuel enough. -/
def replayFrom (segment : Nat) (isLast : Bool) (writtenThrough headerFirstLsn : Nat) :
    Nat → Bytes → Nat → Bool → Recovered → Except Error (Nat × Bool × Recovered)
  | 0, _, offset, _, recovered => .ok (offset, false, recovered)
  | fuel + 1, rest, offset, sawRecord, recovered =>
    if rest = [] ∨ writtenThrough ≤ offset then .ok (offset, false, recovered)
    else
      match readFrame segment isLast writtenThrough offset rest with
      | .error error => .error error
      | .ok .torn => .ok (offset, true, recovered)
      | .ok (.whole record total) =>
        if !sawRecord ∧ record.lsn ≠ headerFirstLsn then
          .error (.corruptWal segment offset "segment first LSN does not match its header")
        else if recovered.state.lsn < record.lsn ∧ record.lsn ≠ recovered.state.lsn + 1 then
          .error (.corruptWal segment offset "WAL sequence is discontinuous")
        else
          replayFrom segment isLast writtenThrough headerFirstLsn fuel (rest.drop total)
            (offset + total) true (recovered.add record)

/-- One segment: where its records end, the file, cut before a torn record, and what recovery has
    read. -/
def replaySegment (file : Bytes) (segment : Nat) (nextFirstLsn : Option Nat)
    (recovered : Recovered) : Except Error (Nat × Bytes × Recovered) := do
  if file.length < segmentHeaderLen then
    throw (.corruptWal segment 0 "incomplete segment header")
  let header := file.take segmentHeaderLen
  if header.take 4 = segmentMagic ∧ slice header 4 1 ≠ [version] then
    throw (.formatVersion "WAL segment" (fromBE (slice header 4 1)) version.val)
  if header.take 4 ≠ segmentMagic ∨ fromBE (slice header 8 8) ≠ segment ∨
      checksum (header.take 24) ≠ fromBE (slice header 24 4) then
    throw (.corruptWal segment 0 "invalid segment header")
  if nextFirstLsn.any (fun next => next - 1 ≤ recovered.state.lsn) then
    -- nothing in a segment that ends before the recovered state matters
    return (file.length, file, recovered)
  let (stop, torn, recovered) ← replayFrom segment nextFirstLsn.isNone (lastWrittenByte file)
    (fromBE (slice header 16 8)) file.length (file.drop segmentHeaderLen) segmentHeaderLen false
    recovered
  return (stop, if torn then file.take stop else file, recovered)

/-! ## The writer -/

/-- How far ahead of itself the writer lays zeros at most in one step. -/
def maxRunway : Nat := 8 * 2 ^ 20

/-- The append side of the active segment. -/
structure Writer where
  file : Bytes
  offset : Nat
  zeroed : Nat
  runway : Nat

/-- A write at an offset; a gap before it reads as zeros. -/
def writeAllAt (file bytes : Bytes) (offset : Nat) : Bytes :=
  file.take offset ++ zeros (offset - file.length) ++ bytes ++ file.drop (offset + bytes.length)

/-- Lays zeros ahead for a record of this size, unless it is larger than one step. -/
def Writer.reserve (writer : Writer) (wanted : Nat) : Writer :=
  let required := writer.offset + wanted
  if required ≤ writer.zeroed ∨ writer.zeroed + writer.runway < required then writer
  else
    let step := max writer.runway (min (wanted * 64) (max maxRunway writer.runway))
    { writer with
      file := writeAllAt writer.file (zeros step) writer.zeroed
      zeroed := writer.zeroed + step }

def Writer.append (writer : Writer) (record : Bytes) : Writer :=
  let writer := writer.reserve record.length
  { writer with
    file := writeAllAt writer.file record writer.offset
    offset := writer.offset + record.length
    zeroed := max writer.zeroed (writer.offset + record.length) }

/-! ## Frames -/

section Frames

variable {segment writtenThrough offset : Nat} {isLast : Bool} {record : WalRecord}

/-- Behind a header that is accepted, the payload and the footer decide. -/
theorem readFrame_parts (h : Encodable record) {payload footer : Bytes} (more : Bytes)
    (hhead : head.length = recordHeaderLen)
    (hpayload : payload.length = (encodePayload record.operations).length)
    (hfooter : footer.length = recordFooterLen) (hmagic : head.take 4 = recordMagic)
    (hknown : recordVersionKnown head) (hcrc : recordHeaderCrcOk head)
    (hread : Header.read head = headerOf record)
    (hwritten : offset + (frame record).length ≤ writtenThrough) :
    readFrame segment isLast writtenThrough offset (head ++ payload ++ footer ++ more) =
      match validatePayload payload record.operations.length with
      | .error reason => .error (.corruptWal segment offset reason)
      | .ok () =>
        if fromBE (footer.take 4) ≠ (frame record).length ∨ footer.drop 4 ≠ recordEnd ∨
            transactionChecksum record.lsn record.operations.length payload record.root record.len ≠
              (headerOf record).expectedChecksum then
          .error (.corruptWal segment offset "transaction checksum or footer mismatch")
        else .ok (.whole ⟨record.lsn, decodeOperations record.operations.length payload, record.root,
          record.len⟩ (frame record).length) := by
  obtain ⟨hcount, hsize⟩ := h.sized
  have hlen : (frame record).length = totalLen (headerOf record).payloadLen := length_frame record
  have htotal : recordHeaderLen ≤ (frame record).length := by
    rw [hlen, totalLen]
    omega
  have hrest : (head ++ payload ++ footer ++ more).length = (frame record).length + more.length := by
    rw [length_append, length_append, length_append, hhead, hpayload, hfooter,
      length_frame, totalLen]
  have htake : (head ++ payload ++ footer ++ more).take recordHeaderLen = head := by
    rw [append_assoc, append_assoc, take_left' hhead]
  have hslice : slice (head ++ payload ++ footer ++ more) recordHeaderLen
      (headerOf record).payloadLen = payload :=
    slice_middle (c := footer ++ more) (by simp only [append_assoc]) hhead hpayload
  have hslice' : slice (head ++ payload ++ footer ++ more)
      (recordHeaderLen + (headerOf record).payloadLen) recordFooterLen = footer :=
    slice_middle rfl (by rw [length_append, hhead, hpayload]; rfl) hfooter
  rw [readFrame, if_neg (by omega)]
  simp only [htake, hmagic, hknown, hcrc, hread, ne_eq, not_true_eq_false, Bool.not_true,
    Bool.false_eq_true, or_self, if_false, hcount, hsize]
  rw [if_neg (by omega), hslice, hslice', ← hlen]
  rfl

/-- A record is read back behind any header that is accepted and names its fields. -/
theorem readFrame_accepted (h : Encodable record) (more : Bytes)
    (hhead : head.length = recordHeaderLen) (hmagic : head.take 4 = recordMagic)
    (hknown : recordVersionKnown head) (hcrc : recordHeaderCrcOk head)
    (hread : Header.read head = headerOf record)
    (hwritten : offset + (frame record).length ≤ writtenThrough) :
    readFrame segment isLast writtenThrough offset (head ++ encodePayload record.operations ++
        footerOf record ++ more) =
      .ok (.whole record (frame record).length) := by
  have hdecode : decodeOperations record.operations.length
      (encodePayload record.operations) = record.operations := by
    have hall := decodeOperations_encode h.valid []
    rwa [append_nil] at hall
  rw [readFrame_parts h more hhead rfl (length_recordFooter _) hmagic hknown hcrc hread hwritten,
    validatePayload_encode h.valid]
  rw [recordFooter_total h.total, recordFooter_end, hdecode, if_neg]
  rintro (hne | hne | hne)
  · exact hne (length_frame record).symm
  · exact hne rfl
  · exact hne rfl

/-- **FRAME**: a record that was written whole is read back. -/
theorem readFrame_frame (h : Encodable record) (more : Bytes)
    (hwritten : offset + (frame record).length ≤ writtenThrough) :
    readFrame segment isLast writtenThrough offset (frame record ++ more) =
      .ok (.whole record (frame record).length) :=
  readFrame_accepted h more (length_recordHeader record) (recordHeader_magic record)
    (recordHeader_known record) (recordHeader_crc record) (read_recordHeader h) hwritten

end Frames

/-! ## Runs of records -/

section Records

/-- The bytes of records, one behind the other. -/
def frames (records : List WalRecord) : Bytes := (records.map frame).flatten

/-- Records with consecutive LSNs, from `lsn` on. -/
def Consecutive : Nat → List WalRecord → Prop
  | _, [] => True
  | lsn, record :: rest => record.lsn = lsn ∧ Consecutive (lsn + 1) rest

/-- What recovery has read after these records. -/
def Recovered.extend (recovered : Recovered) (records : List WalRecord) : Recovered :=
  records.foldl Recovered.add recovered

variable {records : List WalRecord} {lsn : Nat} {recovered : Recovered}

theorem frames_cons (record : WalRecord) (records : List WalRecord) :
    frames (record :: records) = frame record ++ frames records := rfl

theorem frames_append (a b : List WalRecord) : frames (a ++ b) = frames a ++ frames b := by
  rw [frames, map_append, flatten_append]
  rfl

theorem consecutive_append {front rest : List WalRecord} :
    Consecutive lsn (front ++ rest) ↔
      Consecutive lsn front ∧ Consecutive (lsn + front.length) rest := by
  induction front generalizing lsn with
  | nil => simp [Consecutive]
  | cons record front ih =>
    rw [cons_append, Consecutive, Consecutive, ih, length_cons, and_assoc,
      show lsn + 1 + front.length = lsn + (front.length + 1) by omega]

theorem Consecutive.bounds (h : Consecutive lsn records) :
    ∀ record ∈ records, lsn ≤ record.lsn ∧ record.lsn < lsn + records.length := by
  induction records generalizing lsn with
  | nil => exact forall_mem_nil _
  | cons head records ih =>
    obtain ⟨rfl, hrest⟩ := h
    rintro record (_ | ⟨_, hmem⟩)
    · simp
    · obtain ⟨_, _⟩ := ih hrest record hmem
      rw [length_cons]
      omega

theorem Consecutive.pairwise (h : Consecutive lsn records) :
    records.Pairwise (fun a b => a.lsn < b.lsn) := by
  induction records generalizing lsn with
  | nil => exact Pairwise.nil
  | cons head records ih =>
    obtain ⟨rfl, hrest⟩ := h
    exact pairwise_cons.mpr
      ⟨fun record hmem => Nat.lt_of_succ_le (hrest.bounds record hmem).1, ih hrest⟩

theorem Recovered.extend_append (recovered : Recovered) (front rest : List WalRecord) :
    recovered.extend (front ++ rest) = (recovered.extend front).extend rest :=
  foldl_append

/-- Records that recovery has already seen change nothing. -/
theorem Recovered.extend_seen (h : ∀ record ∈ records, record.lsn ≤ recovered.state.lsn) :
    recovered.extend records = recovered := by
  induction records with
  | nil => rfl
  | cons record records ih =>
    rw [forall_mem_cons] at h
    have hseen : recovered.add record = recovered :=
      if_neg (not_lt.mpr h.1)
    rw [Recovered.extend, foldl_cons, hseen]
    exact ih h.2

theorem Recovered.add_lsn (recovered : Recovered) (record : WalRecord) :
    (recovered.add record).state.lsn = max recovered.state.lsn record.lsn := by
  rw [Recovered.add]
  split_ifs with hnew
  · exact (max_eq_right hnew.le).symm
  · exact (max_eq_left (not_lt.mp hnew)).symm

/-- Consecutive records that recovery can go on with lead to the last of them. -/
theorem Recovered.extend_lsn (recovered : Recovered) (h : Consecutive lsn records)
    (hgoes : lsn ≤ recovered.state.lsn + 1) :
    (recovered.extend records).state.lsn + 1 =
      max (recovered.state.lsn + 1) (lsn + records.length) := by
  induction records generalizing lsn recovered with
  | nil => exact (max_eq_left hgoes).symm
  | cons record records ih =>
    obtain ⟨hrecord, hrest⟩ := h
    have hadd := recovered.add_lsn record
    rw [Recovered.extend, foldl_cons]
    refine (ih _ hrest (by omega)).trans ?_
    rw [hadd, hrecord, length_cons]
    omega

/-- The root, count and LSN that a record leaves. -/
def stateOf (record : WalRecord) : TreeState := ⟨record.root, record.len, record.lsn⟩

/-- **REDO**: recovery keeps the records beyond where it began, and the last of them names the
    state. -/
theorem Recovered.extend_eq (recovered : Recovered)
    (h : records.Pairwise (fun a b => a.lsn < b.lsn)) :
    recovered.extend records =
      ⟨((records.filter (fun record => recovered.state.lsn < record.lsn)).getLast?.map
          stateOf).getD recovered.state,
        recovered.redo ++ records.filter (fun record => recovered.state.lsn < record.lsn)⟩ := by
  induction records using reverseRecOn with
  | nil => simp [Recovered.extend]
  | append_singleton records record ih =>
    obtain ⟨hfront, -, hbefore⟩ := pairwise_append.mp h
    have hlater : ∀ r ∈ records, r.lsn < record.lsn :=
      fun r hr => hbefore r hr record mem_cons_self
    rw [Recovered.extend_append, ih hfront, filter_append]
    -- the record goes on exactly where it is beyond the start
    by_cases hbeyond : recovered.state.lsn < record.lsn
    · have hstate : (((records.filter (fun r => recovered.state.lsn < r.lsn)).getLast?.map
          stateOf).getD recovered.state).lsn < record.lsn := by
        cases hlast : (records.filter (fun r => recovered.state.lsn < r.lsn)).getLast? with
        | none => exact hbeyond
        | some last =>
          exact hlater last (mem_of_mem_filter (mem_of_getLast? hlast))
      rw [filter_cons_of_pos (by simpa using hbeyond), filter_nil,
        getLast?_concat, Recovered.extend, foldl_cons, foldl_nil, Recovered.add,
        if_pos hstate, append_assoc]
      rfl
    · have hnone : records.filter (fun r => recovered.state.lsn < r.lsn) = [] := by
        refine filter_eq_nil_iff.mpr (fun r hr => ?_)
        simp only [decide_eq_true_eq]
        exact fun hlt => hbeyond (hlt.trans (hlater r hr))
      rw [filter_cons_of_neg (by simpa using hbeyond), filter_nil, hnone,
        Recovered.extend, foldl_cons, foldl_nil, Recovered.add]
      exact if_neg hbeyond

/-- What the walk checks of records that were read whole, from `offset` on. -/
def Recovered.pass (segment headerFirstLsn : Nat) :
    Nat → Bool → Recovered → List WalRecord → Except Error Recovered
  | _, _, recovered, [] => .ok recovered
  | offset, sawRecord, recovered, record :: rest =>
    if !sawRecord ∧ record.lsn ≠ headerFirstLsn then
      .error (.corruptWal segment offset "segment first LSN does not match its header")
    else if recovered.state.lsn < record.lsn ∧ record.lsn ≠ recovered.state.lsn + 1 then
      .error (.corruptWal segment offset "WAL sequence is discontinuous")
    else pass segment headerFirstLsn (offset + (frame record).length) true (recovered.add record) rest

section Walk

variable {segment writtenThrough headerFirstLsn : Nat} {isLast : Bool} {sawRecord : Bool}
  {offset : Nat}

/-- The walk over records is those checks, whatever follows the records. -/
theorem replayFrom_pass (hencodable : ∀ record ∈ records, Encodable record) (more : Bytes)
    (hwritten : offset + (frames records).length ≤ writtenThrough) (fuel : Nat) :
    replayFrom segment isLast writtenThrough headerFirstLsn (records.length + fuel)
        (frames records ++ more) offset sawRecord recovered =
      Recovered.pass segment headerFirstLsn offset sawRecord recovered records >>= fun recovered =>
        replayFrom segment isLast writtenThrough headerFirstLsn fuel more
          (offset + (frames records).length) (sawRecord || !records.isEmpty) recovered := by
  induction records generalizing recovered offset sawRecord with
  | nil => simp [frames, Recovered.pass, bind, Except.bind]
  | cons record records ih =>
    rw [forall_mem_cons] at hencodable
    have hpos : 0 < (frame record).length := by
      rw [length_frame, totalLen, recordHeaderLen]
      omega
    rw [frames_cons, length_append] at hwritten
    rw [frames_cons, append_assoc, length_cons,
      show records.length + 1 + fuel = records.length + fuel + 1 by omega, replayFrom, if_neg,
      readFrame_frame hencodable.1 _ (by omega), Recovered.pass]
    · dsimp only
      by_cases hfirst : !sawRecord ∧ record.lsn ≠ headerFirstLsn
      · rw [if_pos hfirst, if_pos hfirst]
        rfl
      · rw [if_neg hfirst, if_neg hfirst]
        split_ifs with hgap
        · rfl
        · rw [drop_left, ih hencodable.2 (by omega)]
          simp only [length_append, add_assoc, Bool.true_or, isEmpty_cons,
            Bool.not_false, Bool.or_true]
    · rintro (hnil | _)
      · have := congrArg length hnil
        rw [length_append, length_nil] at this
        omega
      · omega

/-- Consecutive records that go on with what was recovered pass. -/
theorem Recovered.pass_consecutive (hlsn : Consecutive lsn records)
    (hfirst : sawRecord = false → headerFirstLsn = lsn) (hgoes : lsn ≤ recovered.state.lsn + 1) :
    Recovered.pass segment headerFirstLsn offset sawRecord recovered records =
      .ok (recovered.extend records) := by
  induction records generalizing lsn recovered offset sawRecord with
  | nil => rfl
  | cons record records ih =>
    obtain ⟨hrecord, hrest⟩ := hlsn
    have hnext := recovered.add_lsn record
    rw [Recovered.pass, if_neg, if_neg (by omega)]
    · exact ih hrest nofun (by omega)
    · rintro ⟨hsaw, hne⟩
      rw [Bool.not_eq_true'] at hsaw
      exact hne (hrecord.trans (hfirst hsaw).symm)

end Walk

end Records

/-! ## Segments as the writer leaves them -/

/-- A segment file: its header, its records and the runway. -/
structure Segment where
  id : Nat
  firstLsn : Nat
  records : List WalRecord
  runway : Nat

abbrev Segment.header (segment : Segment) : Bytes :=
  segmentHeader segment.id segment.firstLsn

/-- The part of the file that was written. -/
def Segment.body (segment : Segment) : Bytes := segment.header ++ frames segment.records

def Segment.file (segment : Segment) : Bytes := segment.body ++ zeros segment.runway

/-- A segment whose records belong to it. -/
structure Segment.Sound (segment : Segment) : Prop where
  id : segment.id < 256 ^ 8
  firstLsn : segment.firstLsn < 256 ^ 8
  lsns : Consecutive segment.firstLsn segment.records
  encodable : ∀ record ∈ segment.records, Encodable record

section Segments

variable {segment : Segment} {firstLsn id : Nat} {writer : Writer} {body : Bytes}

@[simp] theorem length_segmentHead (id firstLsn : Nat) : (segmentHead id firstLsn).length = 24 := by
  simp [segmentHead, segmentMagic]

@[simp] theorem length_segmentHeader (id firstLsn : Nat) :
    (segmentHeader id firstLsn).length = segmentHeaderLen := by
  simp [segmentHeader, segmentHeaderLen]

@[simp] theorem length_zeros (n : Nat) : (zeros n).length = n := length_replicate

theorem length_body (segment : Segment) :
    segment.body.length = segmentHeaderLen + (frames segment.records).length := by
  rw [Segment.body, length_append, length_segmentHeader]

theorem file_header (segment : Segment) :
    segment.file.take segmentHeaderLen = segment.header := by
  rw [Segment.file, Segment.body, append_assoc, take_left' (length_segmentHeader _ _)]

theorem segmentHeader_magic (id firstLsn : Nat) :
    (segmentHeader id firstLsn).take 4 = segmentMagic := rfl

theorem segmentHeader_version (id firstLsn : Nat) :
    slice (segmentHeader id firstLsn) 4 1 = [version] := rfl

theorem segmentHeader_checksum (id firstLsn : Nat) :
    checksum ((segmentHeader id firstLsn).take 24) =
      fromBE (slice (segmentHeader id firstLsn) 24 4) := by
  have htake : (segmentHeader id firstLsn).take 24 = segmentHead id firstLsn := by
    rw [segmentHeader, append_assoc, take_left' (length_segmentHead id firstLsn)]
  have hfield : fromBE (slice (segmentHeader id firstLsn) 24 4) =
      checksum (segmentHead id firstLsn) :=
    fromBE_slice rfl (length_segmentHead id firstLsn) (BitVec.isLt _)
  rw [htake, hfield]

theorem segmentHeader_id (h : id < 256 ^ 8) (firstLsn : Nat) :
    fromBE (slice (segmentHeader id firstLsn) 8 8) = id := by
  have hfield := fromBE_packed (segmentMagic ++ [version, 0, 0, 0])
    (toBE 4 (checksum (segmentHead id firstLsn)) ++ [0, 0, 0, 0]) [] [(8, firstLsn)] h
  rwa [← append_assoc] at hfield

theorem segmentHeader_firstLsn (id : Nat) (h : firstLsn < 256 ^ 8) :
    fromBE (slice (segmentHeader id firstLsn) 16 8) = firstLsn := by
  have hfield := fromBE_packed (segmentMagic ++ [version, 0, 0, 0])
    (toBE 4 (checksum (segmentHead id firstLsn)) ++ [0, 0, 0, 0]) [(8, id)] [] h
  rwa [← append_assoc] at hfield

theorem readSegmentFirstLsn_file (h : segment.Sound) :
    readSegmentFirstLsn segment.file = .ok segment.firstLsn := by
  rw [readSegmentFirstLsn, if_neg (by rw [Segment.file, length_append, length_body]; omega),
    file_header]
  dsimp only
  rw [segmentHeader_firstLsn _ h.firstLsn, if_neg]
  rintro (hne | hne | hne)
  · exact hne (segmentHeader_magic _ _)
  · exact hne (segmentHeader_version _ _)
  · exact hne (segmentHeader_checksum _ _)

/-- A byte that is not zero was written. -/
theorem lt_lastWrittenByte (front : Bytes) {last : Byte} (back : Bytes) (h : last ≠ 0) :
    front.length < lastWrittenByte (front ++ last :: back) := by
  have hzeros : ((front ++ last :: back).reverse.takeWhile (fun byte => byte = 0)).length ≤
      back.length := by
    rw [reverse_append, reverse_cons, append_assoc]
    by_cases hback : ∀ byte ∈ back.reverse, decide (byte = 0) = true
    · rw [takeWhile_append_of_pos hback]
      simp [h]
    · -- the zeros end inside `back`
      rw [takeWhile_append, if_neg]
      · refine (takeWhile_sublist _).length_le.trans ?_
        rw [length_reverse]
      · intro hall
        apply hback
        have hwhole := (List.takeWhile_prefix (p := fun byte : Byte => decide (byte = 0))).eq_of_length
          hall
        exact takeWhile_eq_self_iff.mp hwhole
  rw [lastWrittenByte, length_append, length_cons]
  omega

/-- Zeros at the end were not written. -/
theorem lastWrittenByte_le {front : Bytes} (h : segmentHeaderLen ≤ front.length) (n : Nat) :
    lastWrittenByte (front ++ zeros n) ≤ front.length := by
  have hzeros : n ≤ ((front ++ zeros n).reverse.takeWhile (fun byte => byte = 0)).length := by
    rw [reverse_append, zeros, reverse_replicate, takeWhile_append_of_pos (by simp),
      length_append, length_replicate]
    omega
  rw [lastWrittenByte, length_append, length_zeros]
  omega

/-- What was written ends with the last byte that is not zero. -/
theorem lastWrittenByte_zeros {front : Bytes} {last : Byte} (h : last ≠ 0)
    (hlong : segmentHeaderLen ≤ front.length) (n : Nat) :
    lastWrittenByte (front ++ [last] ++ zeros n) = front.length + 1 := by
  have hle : lastWrittenByte (front ++ [last] ++ zeros n) ≤ (front ++ [last]).length :=
    lastWrittenByte_le (by rw [length_append]; omega) n
  rw [append_assoc, singleton_append] at hle ⊢
  exact le_antisymm (by simpa using hle) (lt_lastWrittenByte front _ h)

/-- A record ends with the end mark, whose bytes are not zero. -/
theorem frames_last {records : List WalRecord} (h : records ≠ []) :
    ∃ front : Bytes, frames records = front ++ [68] := by
  obtain ⟨before, record, rfl⟩ := (eq_nil_or_concat records).resolve_left h
  refine ⟨frames before ++ recordHeader record ++ encodePayload record.operations ++
    toBE 4 (totalLen (encodePayload record.operations).length) ++ [86, 69, 78], ?_⟩
  rw [concat_eq_append, frames_append]
  simp [frames, frame, recordFooter, recordEnd]

/-- Whole records were written to their end. -/
theorem body_le_lastWrittenByte (segment : Segment) (more : Bytes) :
    segment.body.length ≤ lastWrittenByte (segment.body ++ more) := by
  by_cases hempty : segment.records = []
  · rw [length_body, hempty]
    exact le_max_left _ _
  · obtain ⟨front, hframes⟩ := frames_last hempty
    have hbody : segment.body = segment.header ++ front ++ [68] := by
      rw [Segment.body, hframes, append_assoc]
    have hlt := lt_lastWrittenByte (segment.header ++ front) more
      (by decide : (68 : Byte) ≠ 0)
    rw [hbody, append_assoc _ [68], singleton_append, length_append, length_singleton]
    exact hlt

/-- What was written ends where the records end. -/
theorem lastWrittenByte_file (segment : Segment) :
    lastWrittenByte segment.file = segment.body.length :=
  le_antisymm (lastWrittenByte_le (by rw [length_body]; omega) _)
    (body_le_lastWrittenByte segment _)

theorem length_le_frames (records : List WalRecord) : records.length ≤ (frames records).length := by
  induction records with
  | nil => exact Nat.le_refl 0
  | cons record records ih =>
    rw [frames_cons, length_append, length_frame, totalLen, recordHeaderLen, length_cons]
    omega

/-- The walk passes the records of a segment, whatever follows them. -/
theorem replayFrom_body (h : segment.Sound) {recovered : Recovered} (isLast : Bool)
    (hgoes : segment.firstLsn ≤ recovered.state.lsn + 1) (more : Bytes) :
    ∃ fuel, replayFrom segment.id isLast (lastWrittenByte (segment.body ++ more)) segment.firstLsn
        (segment.body ++ more).length (frames segment.records ++ more) segmentHeaderLen false
        recovered =
      replayFrom segment.id isLast (lastWrittenByte (segment.body ++ more)) segment.firstLsn
        (fuel + 1) more segment.body.length (!segment.records.isEmpty)
        (recovered.extend segment.records) := by
  have hbody := length_body segment
  have hlow := body_le_lastWrittenByte segment more
  obtain ⟨fuel, hfuel⟩ : ∃ fuel, (segment.body ++ more).length =
      segment.records.length + (fuel + 1) := by
    have hle := length_le_frames segment.records
    refine ⟨(segment.body ++ more).length - segment.records.length - 1, ?_⟩
    rw [length_append, hbody, segmentHeaderLen]
    omega
  rw [hfuel, replayFrom_pass h.encodable _ (by omega), Recovered.pass_consecutive h.lsns
    (fun _ => rfl) hgoes, ok_bind, ← hbody]
  exact ⟨fuel, rfl⟩

/-- The walk over a whole segment ends where the runway begins. -/
theorem replayFrom_file (h : segment.Sound) {recovered : Recovered} (isLast : Bool)
    (hgoes : segment.firstLsn ≤ recovered.state.lsn + 1) :
    replayFrom segment.id isLast (lastWrittenByte segment.file) segment.firstLsn
        segment.file.length (segment.file.drop segmentHeaderLen) segmentHeaderLen false recovered =
      .ok (segment.body.length, false, recovered.extend segment.records) := by
  have hdrop : segment.file.drop segmentHeaderLen =
      frames segment.records ++ zeros segment.runway := by
    rw [Segment.file, Segment.body, append_assoc, drop_left' (length_segmentHeader _ _)]
  obtain ⟨fuel, hwalk⟩ := replayFrom_body h isLast hgoes (zeros segment.runway)
  rw [hdrop]
  refine hwalk.trans ?_
  rw [replayFrom, if_pos (.inr (lastWrittenByte_file segment).le)]

/-- Behind an intact header, replay is the walk over what follows it. The last four bytes of a
    header are never read. -/
theorem replaySegment_intact (hid : id < 256 ^ 8) (hfirst : firstLsn < 256 ^ 8) {file rest : Bytes}
    (hfile : file = head ++ rest) (hhead : head.length = segmentHeaderLen)
    (hsame : head.take 28 = (segmentHeader id firstLsn).take 28) (next : Option Nat)
    (recovered : Recovered) :
    replaySegment file id next recovered =
      if next.any (fun next => next - 1 ≤ recovered.state.lsn) then
        .ok (file.length, file, recovered)
      else replayFrom id next.isNone (lastWrittenByte file) firstLsn file.length rest
          segmentHeaderLen false recovered >>= fun walked =>
        .ok (walked.1, if walked.2.1 then file.take walked.1 else file, walked.2.2) := by
  have hlong : ¬ file.length < segmentHeaderLen := by
    rw [hfile, length_append, hhead]
    omega
  have hheader : file.take segmentHeaderLen = head := by
    rw [hfile, take_left' hhead]
  have hdrop : file.drop segmentHeaderLen = rest := by
    rw [hfile, drop_left' hhead]
  have hslice : ∀ o n, o + n ≤ 28 → slice head o n = slice (segmentHeader id firstLsn) o n := by
    intro o n hle
    rw [← slice_take hle, hsame, slice_take hle]
  have htake : ∀ n, n ≤ 28 → head.take n = (segmentHeader id firstLsn).take n := by
    intro n hle
    exact hslice 0 n (by omega)
  rw [replaySegment, if_neg hlong]
  simp only [hheader, hdrop, hslice 4 1 (by decide), hslice 8 8 (by decide),
    hslice 16 8 (by decide), hslice 24 4 (by decide), htake 4 (by decide), htake 24 (by decide)]
  rw [if_neg (fun hother => hother.2 (segmentHeader_version _ _)), if_neg,
    segmentHeader_firstLsn _ hfirst]
  · rfl
  · rintro (hne | hne | hne)
    · exact hne (segmentHeader_magic _ _)
    · exact hne (segmentHeader_id hid _)
    · exact hne (segmentHeader_checksum _ _)

/-- **SEGMENT**: a segment as the writer leaves it is replayed to its end. -/
theorem replaySegment_file (h : segment.Sound) (recovered : Recovered) (next : Option Nat)
    (hgoes : segment.firstLsn ≤ recovered.state.lsn + 1)
    (hnext : ∀ lsn ∈ next, lsn = segment.firstLsn + segment.records.length) :
    ∃ stop, replaySegment segment.file segment.id next recovered =
        .ok (stop, segment.file, recovered.extend segment.records) ∧
      (next = none → stop = segment.body.length) := by
  have hfile : segment.file = segment.header ++
      segment.file.drop segmentHeaderLen := by
    rw [← file_header segment, take_append_drop]
  rw [replaySegment_intact h.id h.firstLsn hfile (length_segmentHeader _ _) rfl,
    replayFrom_file h _ hgoes]
  split_ifs with hdead
  · -- every record of the segment is at or below what recovery has seen
    cases next with
    | none => cases hdead
    | some lsn =>
      have hlsn := hnext lsn rfl
      have hseen : lsn - 1 ≤ recovered.state.lsn := by simpa using hdead
      refine ⟨segment.file.length, ?_, nofun⟩
      rw [Recovered.extend_seen]
      intro record hrecord
      have := h.lsns.bounds record hrecord
      omega
  · exact ⟨_, rfl, fun _ => rfl⟩

/-- Zeros laid over a runway, or beyond it, are a runway. -/
theorem writeAllAt_zeros (body : Bytes) {n k : Nat} (m : Nat) (h : k ≤ n) :
    writeAllAt (body ++ zeros n) (zeros m) (body.length + k) = body ++ zeros (max n (k + m)) := by
  have htake : (body ++ zeros n).take (body.length + k) = body ++ zeros k := by
    rw [take_length_add_append, zeros, take_replicate, min_eq_left h]
    rfl
  have hdrop : (body ++ zeros n).drop (body.length + k + (zeros m).length) =
      zeros (n - (k + m)) := by
    rw [add_assoc, drop_length_add_append, length_zeros, zeros, drop_replicate]
    rfl
  have hgap : body.length + k - (body ++ zeros n).length = 0 := by
    rw [length_append, length_zeros]
    omega
  rw [writeAllAt, htake, hdrop, hgap]
  simp only [zeros, append_assoc, replicate_append_replicate, append_cancel_left_eq]
  congr 1
  omega

/-- A record written where the runway begins takes its place. -/
theorem writeAllAt_record (body record : Bytes) (n : Nat) :
    writeAllAt (body ++ zeros n) record body.length =
      body ++ record ++ zeros (n - record.length) := by
  have hgap : body.length - (body ++ zeros n).length = 0 := by
    rw [length_append]
    omega
  rw [writeAllAt, take_left, hgap, drop_length_add_append, zeros, zeros, drop_replicate]
  simp [zeros]

/-- The writer stands behind what was written, with zeros ahead of it. -/
structure Writer.Lays (writer : Writer) (body : Bytes) : Prop where
  file : ∃ n, writer.file = body ++ zeros n ∧ writer.zeroed ≤ body.length + n
  offset : writer.offset = body.length
  ahead : writer.offset ≤ writer.zeroed

theorem Writer.Lays.reserve (h : writer.Lays body) (wanted : Nat) :
    (writer.reserve wanted).Lays body := by
  rw [Writer.reserve]
  split_ifs
  · exact h
  · obtain ⟨⟨n, hfile, _⟩, hoffset, _⟩ := h
    obtain ⟨k, hk⟩ : ∃ k, writer.zeroed = body.length + k := ⟨writer.zeroed - body.length, by omega⟩
    generalize max writer.runway (min (wanted * 64) (max maxRunway writer.runway)) = step
    refine ⟨⟨max n (k + step), ?_, ?_⟩, hoffset, ?_⟩
    · show writeAllAt writer.file (zeros step) writer.zeroed = _
      rw [hfile, hk, writeAllAt_zeros body _ (by omega)]
    · show writer.zeroed + step ≤ _
      omega
    · show writer.offset ≤ writer.zeroed + step
      omega

/-- **APPEND**: a record is laid behind the others. -/
theorem Writer.Lays.append (h : writer.Lays body) (record : Bytes) :
    (writer.append record).Lays (body ++ record) := by
  obtain ⟨⟨n, hfile, _⟩, hoffset, _⟩ := h.reserve record.length
  refine ⟨⟨n - record.length, ?_, ?_⟩, ?_, ?_⟩
  · show writeAllAt (writer.reserve record.length).file record
      (writer.reserve record.length).offset = _
    rw [hfile, hoffset, writeAllAt_record]
  · show max (writer.reserve record.length).zeroed _ ≤ _
    rw [length_append]
    omega
  · show (writer.reserve record.length).offset + record.length = _
    rw [hoffset, length_append]
  · exact le_max_right _ _

end Segments

end Wal

end Vyrn
