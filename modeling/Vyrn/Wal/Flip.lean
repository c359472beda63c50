import Vyrn.Lib.Damage
import Vyrn.Wal.Torn

/-!
# A flipped bit

Replay cuts a torn tail off without a word, so damage must not look like one. Every byte of a
segment is covered before a length it could corrupt is trusted: by the checksums of the segment
header, the record header and the payload, and by the footer's copy of the length and end mark. The
four bytes behind the segment header's checksum are not read, a version byte that turns into the
older version is read the same way, and a bit set in the runway is at most a torn record.
**`flipped_bit_not_silent`**: replay reports an error or recovers the same records.
-/

namespace Vyrn

open ByteString List

namespace Wal

/-! ## Damaged fields -/

section Fields

variable {bs : Bytes} {i n o : Nat} {b : Byte}

theorem set_ne (hn : i < n) (hi : i < bs.length) (hb : b ≠ bs[i]) :
    (bs.set i b).take n ≠ bs.take n := by
  intro heq
  have hat := congrArg (fun l : Bytes => l[i]?) heq
  simp only [getElem?_take_of_lt hn, getElem?_set_self hi, getElem?_eq_getElem hi] at hat
  exact hb (Option.some.inj hat)

theorem checksum_set_ne (hi : i < bs.length) (hb : b ≠ bs[i]) :
    checksum (bs.set i b) ≠ checksum bs :=
  fun heq => crc32_set_ne hi hb (BitVec.eq_of_toNat_eq heq)

theorem field_set_ne (ho : o ≤ i) (hn : i < o + n) (hi : i < bs.length) (hb : b ≠ bs[i]) :
    fromBE (slice (bs.set i b) o n) ≠ fromBE (slice bs o n) := by
  obtain ⟨hlt, hget⟩ := getElem_slice ho hn hi
  rw [slice_set_inside ho]
  exact fromBE_set_ne hlt (by rwa [hget])

/-- The damage is in what a checksum covers, or in the checksum. -/
theorem covered_set_ne (hcrc : checksum (bs.take n) = fromBE (slice bs n 4)) (hn : i < n + 4)
    (hi : i < bs.length) (hb : b ≠ bs[i]) :
    checksum ((bs.set i b).take n) ≠ fromBE (slice (bs.set i b) n 4) := by
  by_cases hcovered : i < n
  · rw [slice_set_outside (.inl hcovered), ← hcrc, take_set]
    refine checksum_set_ne (by rw [length_take]; omega) ?_
    rwa [getElem_take]
  · rw [take_set_of_le (not_lt.mp hcovered), hcrc]
    exact (field_set_ne (not_lt.mp hcovered) hn hi hb).symm

/-- A part that is not zero keeps the whole from being zero. -/
theorem not_all_zero (h : slice bs o n = [b]) (hb : b ≠ 0) : ¬ bs.all (fun byte => byte = 0) := by
  intro hall
  have hmem : b ∈ slice bs o n := by
    rw [h]
    exact mem_singleton_self b
  have hzero := all_eq_true.mp hall b (mem_of_mem_drop (mem_of_mem_take hmem))
  exact hb (by simpa using hzero)

end Fields

/-! ## Damaged records -/

/-- The first result is an error, or it is the second. -/
def Reported {α : Type} (damaged original : Except Error α) : Prop :=
  (∃ error, damaged = .error error) ∨ damaged = original

variable {byte : Byte} {head : Bytes}

section Records

variable {segment writtenThrough offset o : Nat} {isLast : Bool} {record : WalRecord}

section

variable (rest : Bytes) (hhead : head.length = recordHeaderLen)
  (hwritten : offset + recordHeaderLen ≤ writtenThrough)
include hhead hwritten

/-- A header without magic or version is an error, unless it is all zeros. -/
theorem readFrame_unknown (hbad : head.take 4 ≠ recordMagic ∨ !recordVersionKnown head)
    (hsome : ¬ head.all (fun byte => byte = 0)) :
    ∃ error, readFrame segment isLast writtenThrough offset (head ++ rest) = .error error := by
  rw [readFrame, if_neg (by rw [length_append]; omega)]
  simp only [take_left' hhead]
  rw [if_pos hbad, stopAtTornRecord, if_neg (fun hzero => hsome hzero.2)]
  exact ⟨_, rfl⟩

/-- A header that fails its own checksum is an error. -/
theorem readFrame_badCrc (hmagic : head.take 4 = recordMagic) (hknown : recordVersionKnown head)
    (hcrc : recordHeaderCrcOk head = false) :
    ∃ error, readFrame segment isLast writtenThrough offset (head ++ rest) = .error error := by
  rw [readFrame, if_neg (by rw [length_append]; omega)]
  simp only [take_left' hhead]
  rw [if_neg, if_pos (by rw [hcrc]; rfl)]
  · exact ⟨_, rfl⟩
  · rintro (hne | hne)
    · exact hne hmagic
    · rw [hknown] at hne
      cases hne

end

theorem headerCrc_damaged (hlow : 5 ≤ o) (ho : o < (recordHeader record).length)
    (hbyte : byte ≠ (recordHeader record)[o]) :
    recordHeaderCrcOk ((recordHeader record).set o byte) = false := by
  have hcrc := recordHeader_crc record
  have hlen := length_recordHeader record
  have hversion : slice ((recordHeader record).set o byte) 4 1 = [recordVersion] := by
    rw [slice_set_outside (.inr hlow)]
    rfl
  rw [recordHeaderCrcOk, recordHeader_version] at hcrc
  rw [recordHeaderCrcOk, hversion]
  simp only [ne_eq, not_true_eq_false, decide_false, Bool.false_or, decide_eq_true_eq,
    decide_eq_false_iff_not] at hcrc ⊢
  exact covered_set_ne hcrc (ho.trans_eq hlen) ho hbyte

section

variable (h : Encodable record)
include h

/-- A damaged record header. Only the version byte can change unnoticed, into the older version,
    which is read the same way. -/
theorem readFrame_damagedHeader (ho : o < (recordHeader record).length)
    (hbyte : byte ≠ (recordHeader record)[o]) (more : Bytes)
    (hwritten : offset + (frame record).length ≤ writtenThrough) :
    Reported (readFrame segment isLast writtenThrough offset
      ((recordHeader record).set o byte ++ encodePayload record.operations ++
        footerOf record ++ more)) (.ok (.whole record (frame record).length)) := by
  have hlen : ((recordHeader record).set o byte).length = recordHeaderLen := by
    rw [length_set, length_recordHeader]
  have hhead : offset + recordHeaderLen ≤ writtenThrough := by
    rw [length_frame, totalLen] at hwritten
    omega
  rcases Nat.lt_trichotomy o 4 with hmagic | rfl | hfields
  · -- the magic
    left
    rw [append_assoc, append_assoc]
    refine readFrame_unknown _ hlen hhead (.inl (set_ne hmagic ho hbyte)) ?_
    exact not_all_zero (o := 4) (n := 1) (b := recordVersion)
      (slice_set_outside (.inl hmagic)) (by decide)
  · have hversion : slice ((recordHeader record).set 4 byte) 4 1 = [byte] := by
      rw [slice_set_inside (Nat.le_refl 4), recordHeader_version]
      rfl
    have htake : ((recordHeader record).set 4 byte).take 4 = recordMagic := by
      rw [take_set_of_le le_rfl]
      exact recordHeader_magic record
    by_cases hlegacy : byte = legacyRecordVersion
    · right
      have hread : Header.read ((recordHeader record).set 4 byte) = headerOf record := by
        rw [← read_recordHeader h]
        simp only [Header.read]
        iterate 6 rw [slice_set_outside (.inl (by decide))]
      refine readFrame_accepted h more hlen htake ?_ ?_ hread hwritten
      · rw [recordVersionKnown, hversion, hlegacy]
        rfl
      · rw [recordHeaderCrcOk, hversion, hlegacy]
        rfl
    · left
      rw [append_assoc, append_assoc]
      refine readFrame_unknown _ hlen hhead (.inr ?_) ?_
      · have hnew : byte ≠ recordVersion := hbyte
        simp [recordVersionKnown, hversion, hlegacy, hnew]
      · refine not_all_zero (o := 0) (n := 1) (b := 86) ?_ (by decide)
        rw [slice_set_outside (.inr (by decide))]
        rfl
  · -- the fields and the checksum
    left
    rw [append_assoc, append_assoc]
    refine readFrame_badCrc _ hlen hhead ?_ ?_ (headerCrc_damaged hfields ho hbyte)
    · rw [take_set_of_le hfields.le]
      exact recordHeader_magic record
    · rw [recordVersionKnown, slice_set_outside (.inr hfields), recordHeader_version]
      rfl

/-- A damaged payload does not pass, if only because of its checksum. -/
theorem readFrame_damagedPayload (ho : o < (encodePayload record.operations).length)
    (hbyte : byte ≠ (encodePayload record.operations)[o]) (more : Bytes)
    (hwritten : offset + (frame record).length ≤ writtenThrough) :
    ∃ error, readFrame segment isLast writtenThrough offset
      (recordHeader record ++ (encodePayload record.operations).set o byte ++
        footerOf record ++ more) = .error error := by
  have hchecksum : transactionChecksum record.lsn record.operations.length
      ((encodePayload record.operations).set o byte) record.root record.len ≠
        (headerOf record).expectedChecksum := by
    show transactionChecksum _ _ _ _ _ ≠ transactionChecksum _ _ _ _ _
    rw [transactionChecksum, transactionChecksum, length_set]
    generalize [version] ++ toBE 8 record.lsn ++ toBE 4 record.operations.length ++
      toBE 4 (encodePayload record.operations).length ++ toBE 8 record.root ++
      toBE 8 record.len = fields
    exact fun heq => crc32_append_set_ne fields ho hbyte (BitVec.eq_of_toNat_eq heq)
  rw [readFrame_parts h more (length_recordHeader record) (length_set) (length_recordFooter _)
    (recordHeader_magic record) (recordHeader_known record) (recordHeader_crc record)
    (read_recordHeader h) hwritten]
  cases validatePayload ((encodePayload record.operations).set o byte)
      record.operations.length with
  | error => exact ⟨_, rfl⟩
  | ok =>
    rw [if_pos (.inr (.inr hchecksum))]
    exact ⟨_, rfl⟩

/-- A damaged footer does not match the length, or is not the end mark. -/
theorem readFrame_damagedFooter
    (ho : o < (footerOf record).length) (hbyte : byte ≠ (footerOf record)[o])
    (more : Bytes) (hwritten : offset + (frame record).length ≤ writtenThrough) :
    ∃ error, readFrame segment isLast writtenThrough offset
      (recordHeader record ++ encodePayload record.operations ++
        (footerOf record).set o byte ++ more) = .error error := by
  have hmismatch : fromBE (((footerOf record).set o byte).take 4) ≠ (frame record).length ∨
      ((footerOf record).set o byte).drop 4 ≠ recordEnd := by
    by_cases hlow : o < 4
    · left
      rw [length_frame]
      rw [← recordFooter_total h.total]
      exact field_set_ne (o := 0) (Nat.zero_le _) (by omega) ho hbyte
    · right
      intro heq
      rw [← recordFooter_end (totalLen (encodePayload record.operations).length)] at heq
      have hat := congrArg (fun l : Bytes => l[o - 4]?) heq
      simp only [getElem?_drop] at hat
      rw [show 4 + (o - 4) = o by omega, getElem?_set_self ho, getElem?_eq_getElem ho] at hat
      exact hbyte (Option.some.inj hat)
  rw [readFrame_parts h more (length_recordHeader record) rfl
    (length_set.trans (length_recordFooter _)) (recordHeader_magic record)
    (recordHeader_known record) (recordHeader_crc record) (read_recordHeader h) hwritten,
    validatePayload_encode h.valid]
  rw [if_pos (hmismatch.imp_right .inl)]
  exact ⟨_, rfl⟩

/-- **RECORD**: whichever byte of a record is changed, reading it is an error or gives the
    record. -/
theorem readFrame_damaged (ho : o < (frame record).length) (hbyte : byte ≠ (frame record)[o])
    (more : Bytes) (hwritten : offset + (frame record).length ≤ writtenThrough) :
    Reported (readFrame segment isLast writtenThrough offset ((frame record).set o byte ++ more))
      (.ok (.whole record (frame record).length)) := by
  simp only [frame] at hbyte
  nth_rewrite 1 [frame]
  rw [length_frame, totalLen] at ho
  by_cases hfooter : (recordHeader record ++ encodePayload record.operations).length ≤ o
  · left
    rw [set_append_right _ _ hfooter]
    refine readFrame_damagedFooter h ?_ ?_ more hwritten
    · rw [length_recordFooter]
      rw [length_append, length_recordHeader] at hfooter ⊢
      omega
    · rwa [getElem_append_right hfooter] at hbyte
  · rw [set_append_left _ _ (not_le.mp hfooter)]
    rw [getElem_append_left (not_le.mp hfooter)] at hbyte
    by_cases hpayload : (recordHeader record).length ≤ o
    · left
      rw [set_append_right _ _ hpayload]
      rw [getElem_append_right hpayload] at hbyte
      exact readFrame_damagedPayload h _ hbyte more hwritten
    · rw [set_append_left _ _ (not_le.mp hpayload)]
      rw [getElem_append_left (not_le.mp hpayload)] at hbyte
      exact readFrame_damagedHeader h _ hbyte more hwritten

end

end Records

/-! ## Damaged segments -/

section Segments

variable {segment : Segment} {recovered : Recovered} {next : Option Nat} {i : Nat}

/-- A damaged segment header fails its checksum. -/
theorem replaySegment_damagedHeader {id firstLsn : Nat} (hi : i < 28)
    (hlt : i < (segmentHeader id firstLsn).length) (hbyte : byte ≠ (segmentHeader id firstLsn)[i])
    (rest : Bytes) :
    ∃ error, replaySegment ((segmentHeader id firstLsn).set i byte ++ rest) id next recovered =
      .error error := by
  have hlen : ((segmentHeader id firstLsn).set i byte).length = segmentHeaderLen := by
    rw [length_set, length_segmentHeader]
  have hbad : checksum (((segmentHeader id firstLsn).set i byte).take 24) ≠
      fromBE (slice ((segmentHeader id firstLsn).set i byte) 24 4) :=
    covered_set_ne (segmentHeader_checksum id firstLsn) hi hlt hbyte
  rw [replaySegment, if_neg (by rw [length_append, hlen]; omega)]
  simp only [take_left' hlen]
  by_cases hversion : ((segmentHeader id firstLsn).set i byte).take 4 = segmentMagic ∧
      slice ((segmentHeader id firstLsn).set i byte) 4 1 ≠ [version]
  · rw [if_pos hversion]
    exact ⟨_, rfl⟩
  · rw [if_neg hversion, if_pos (.inr (.inr hbad))]
    exact ⟨_, rfl⟩

/-- What stands in the header is no record. -/
theorem lastWrittenByte_head {head' : Bytes} (hhead : head.length = segmentHeaderLen)
    (hhead' : head'.length = segmentHeaderLen) (rest : Bytes) :
    lastWrittenByte (head ++ rest) = lastWrittenByte (head' ++ rest) := by
  rw [lastWrittenByte, lastWrittenByte, reverse_append, reverse_append,
    length_append, length_append, hhead, hhead']
  by_cases hzero : ∀ byte ∈ rest.reverse, decide (byte = 0) = true
  · rw [takeWhile_append_of_pos hzero, takeWhile_append_of_pos hzero,
      length_append, length_append, length_reverse]
    omega
  · have hinside : (rest.reverse.takeWhile (fun byte => decide (byte = 0))).length ≠
        rest.reverse.length :=
      fun hall => hzero (takeWhile_eq_self_iff.mp
        ((List.takeWhile_prefix _).eq_of_length hall))
    rw [takeWhile_append, takeWhile_append, if_neg hinside, if_neg hinside]

/-- The record that a byte of the log belongs to. -/
theorem frames_set {records : List WalRecord} (hi : i < (frames records).length) (byte : Byte) :
    ∃ before record after o, ∃ ho : o < (frame record).length,
      records = before ++ record :: after ∧ (frames records)[i] = (frame record)[o] ∧
        (frames records).set i byte =
          frames before ++ ((frame record).set o byte ++ frames after) := by
  induction records generalizing i with
  | nil => exact absurd hi (Nat.not_lt_zero i)
  | cons record records ih =>
    simp only [frames_cons]
    by_cases hfirst : i < (frame record).length
    · refine ⟨[], record, records, i, hfirst, rfl, ?_, ?_⟩
      · exact getElem_append_left hfirst
      · rw [set_append_left _ _ hfirst]
        rfl
    · have hrest : i - (frame record).length < (frames records).length := by
        rw [frames_cons, length_append] at hi
        omega
      obtain ⟨before, other, after, o, ho, hsplit, hget, hset⟩ := ih hrest
      refine ⟨record :: before, other, after, o, ho, by rw [hsplit, cons_append], ?_, ?_⟩
      · rw [getElem_append_right (not_lt.mp hfirst)]
        exact hget
      · rw [set_append_right _ _ (not_lt.mp hfirst), hset, frames_cons, append_assoc]

variable {id writtenThrough headerFirstLsn j : Nat} {isLast : Bool}

/-- The walk over a damaged record fails, or goes on as over the record. -/
theorem replayFrom_damaged {record : WalRecord} (h : Encodable record) {o : Nat}
    (ho : o < (frame record).length) (hbyte : byte ≠ (frame record)[o]) (more : Bytes)
    {offset : Nat} (hwritten : offset + (frame record).length ≤ writtenThrough) (fuel : Nat)
    (sawRecord : Bool) (recovered : Recovered) :
    Reported
      (replayFrom id isLast writtenThrough headerFirstLsn (fuel + 1)
        ((frame record).set o byte ++ more) offset sawRecord recovered)
      (replayFrom id isLast writtenThrough headerFirstLsn (fuel + 1) (frame record ++ more) offset
        sawRecord recovered) := by
  have hgoes : ∀ bytes : Bytes, bytes.length = (frame record).length →
      ¬ (bytes ++ more = [] ∨ writtenThrough ≤ offset) := by
    rintro bytes hlen (hnil | _)
    · rw [append_eq_nil_iff] at hnil
      rw [hnil.1, length_nil] at hlen
      omega
    · omega
  rw [replayFrom, replayFrom, if_neg (hgoes _ length_set), if_neg (hgoes _ rfl),
    readFrame_frame h more hwritten]
  rcases readFrame_damaged h ho hbyte more hwritten with ⟨error, herror⟩ | hwhole
  · left
    rw [herror]
    exact ⟨error, rfl⟩
  · right
    rw [hwhole]
    dsimp only
    rw [drop_left' length_set, drop_left]

/-- One byte that is not zero is no header. -/
theorem zeros_set_magic (n k : Nat) (byte : Byte) :
    (((zeros n).set k byte).take recordHeaderLen).take 4 ≠ recordMagic := by
  intro hmagic
  rw [take_take] at hmagic
  have hat := fun i : Nat => congrArg (fun l : Bytes => l[i]?) hmagic
  have hfirst := hat 0
  have hsecond := hat 1
  simp only [recordHeaderLen, zeros, recordMagic] at hfirst hsecond
  cases k with
  | zero =>
    cases n with
    | zero => cases hfirst
    | succ n => cases n <;> cases hsecond
  | succ k => cases n <;> cases hfirst

/-- A bit set in the runway adds no record. -/
theorem replayFrom_damagedRunway (n k : Nat) (byte : Byte) (fuel offset : Nat) (sawRecord : Bool)
    (recovered : Recovered) :
    (∃ error, replayFrom id isLast writtenThrough headerFirstLsn fuel ((zeros n).set k byte) offset
        sawRecord recovered = .error error) ∨
      ∃ torn, replayFrom id isLast writtenThrough headerFirstLsn fuel ((zeros n).set k byte) offset
        sawRecord recovered = .ok (offset, torn, recovered) := by
  cases fuel with
  | zero => exact .inr ⟨false, rfl⟩
  | succ fuel =>
    rw [replayFrom]
    split_ifs with hend
    · exact .inr ⟨false, rfl⟩
    · -- the frame that begins there is never whole
      have hframe : Reported (readFrame id isLast writtenThrough offset ((zeros n).set k byte))
          (.ok .torn) := by
        rw [readFrame]
        split_ifs with hshort
        · rw [truncateOrCorrupt]
          cases isLast with
          | true => exact .inr rfl
          | false => exact .inl ⟨_, rfl⟩
        · dsimp only
          rw [if_pos (.inl (zeros_set_magic n k byte)), stopAtTornRecord]
          split_ifs
          · exact .inr rfl
          · exact .inl ⟨_, rfl⟩
      rcases hframe with ⟨error, herror⟩ | htorn
      · rw [herror]
        exact .inl ⟨error, rfl⟩
      · rw [htorn]
        exact .inr ⟨true, rfl⟩

/-- What two replays have in common where both succeed: the records. -/
def SameRecords (flipped original : Except Error (Nat × Bytes × Recovered)) : Prop :=
  ∀ stop file recovered, flipped = .ok (stop, file, recovered) →
    ∃ stop file, original = .ok (stop, file, recovered)

section

variable (h : segment.Sound)
include h

/-- The part of a segment behind its header, with one byte of a record changed. -/
theorem replayFrom_flippedRecord (hi : i < (frames segment.records).length)
    (hbyte : byte ≠ (frames segment.records)[i]) (more : Bytes)
    (hwritten : segmentHeaderLen + (frames segment.records).length ≤ writtenThrough) {fuel : Nat}
    (hfuel : segment.records.length ≤ fuel) :
    Reported
      (replayFrom id isLast writtenThrough headerFirstLsn fuel
        ((frames segment.records).set i byte ++ more) segmentHeaderLen false recovered)
      (replayFrom id isLast writtenThrough headerFirstLsn fuel (frames segment.records ++ more)
        segmentHeaderLen false recovered) := by
  obtain ⟨before, record, after, o, ho, hsplit, hget, hset⟩ := frames_set hi byte
  have hencodable := h.encodable
  rw [hget] at hbyte
  rw [hset, hsplit, frames_append, frames_cons, append_assoc, append_assoc,
    append_assoc, append_assoc]
  rw [hsplit] at hwritten hfuel hencodable
  rw [frames_append, frames_cons, length_append, length_append] at hwritten
  rw [length_append, length_cons] at hfuel
  obtain ⟨hbefore, hrecord⟩ := forall_mem_append.mp hencodable
  obtain ⟨left, rfl⟩ : ∃ left, fuel = before.length + (left + 1) :=
    ⟨fuel - before.length - 1, by omega⟩
  rw [replayFrom_pass hbefore _ (by omega), replayFrom_pass hbefore _ (by omega)]
  cases Recovered.pass id headerFirstLsn segmentHeaderLen false recovered before with
  | error error => exact .inl ⟨error, rfl⟩
  | ok passed =>
    rw [ok_bind, ok_bind]
    exact replayFrom_damaged (hrecord record mem_cons_self) ho hbyte (frames after ++ more)
      (by omega) left _ passed

/-- The segment's bytes behind its header. -/
def Segment.log (segment : Segment) : Bytes := frames segment.records ++ zeros segment.runway

omit h in
theorem file_eq (segment : Segment) :
    segment.file = segment.header ++ segment.log := by
  rw [Segment.file, Segment.body, append_assoc]
  rfl

/-- Behind a header that is accepted, replay recovers what the walk recovers. -/
theorem SameRecords.of_walk {rest : Bytes} (hhead : head.length = segmentHeaderLen)
    (hsame : head.take 28 = segment.header.take 28)
    (hrest : rest.length = segment.log.length)
    (hwalk : ∀ stop torn after, replayFrom segment.id next.isNone (lastWrittenByte (head ++ rest))
        segment.firstLsn segment.file.length rest segmentHeaderLen false recovered =
          .ok (stop, torn, after) →
      ∃ stop torn, replayFrom segment.id next.isNone (lastWrittenByte segment.file)
        segment.firstLsn segment.file.length segment.log segmentHeaderLen false recovered =
          .ok (stop, torn, after)) :
    SameRecords (replaySegment (head ++ rest) segment.id next recovered)
      (replaySegment segment.file segment.id next recovered) := by
  have hlen : (head ++ rest).length = segment.file.length := by
    rw [file_eq, length_append, length_append, hhead, hrest, length_segmentHeader]
  rw [replaySegment_intact h.id h.firstLsn rfl hhead hsame,
    replaySegment_intact h.id h.firstLsn (file_eq segment) (length_segmentHeader _ _) rfl, hlen]
  intro stop kept after hok
  by_cases hskip : next.any (fun next => next - 1 ≤ recovered.state.lsn) = true
  · rw [if_pos hskip] at hok ⊢
    cases hok
    exact ⟨_, _, rfl⟩
  · rw [if_neg hskip] at hok ⊢
    obtain ⟨⟨stop', torn', after'⟩, hwalked, hok⟩ := bind_eq_ok.mp hok
    cases hok
    obtain ⟨stop, torn, horiginal⟩ := hwalk _ _ _ hwalked
    rw [horiginal, ok_bind]
    exact ⟨_, _, rfl⟩

/-- A byte changed in the segment header. -/
theorem SameRecords.header (hi : i < segment.header.length)
    (hbyte : byte ≠ segment.header[i]) :
    SameRecords
      (replaySegment (segment.header.set i byte ++ segment.log)
        segment.id next recovered)
      (replaySegment segment.file segment.id next recovered) := by
  have hlen : (segment.header.set i byte).length = segmentHeaderLen := by
    rw [length_set, length_segmentHeader]
  by_cases hchecked : i < 28
  · obtain ⟨error, herror⟩ := replaySegment_damagedHeader hchecked hi hbyte segment.log
    rw [herror]
    exact nofun
  · -- the four bytes behind the checksum
    refine SameRecords.of_walk h hlen ?_ rfl ?_
    · rw [take_set_of_le (not_lt.mp hchecked)]
    · intro stop torn after hok
      rw [lastWrittenByte_head hlen (length_segmentHeader segment.id segment.firstLsn),
        ← file_eq] at hok
      exact ⟨stop, torn, hok⟩

omit h in
/-- The end mark has two bits in each byte, so a flip leaves the end of the records where it was. -/
theorem lastWrittenByte_flippedRecord (segment : Segment) (hj : j < (frames segment.records).length)
    (bit : Fin 8) :
    lastWrittenByte (segment.header ++
      ((frames segment.records).set j (flipByte bit (frames segment.records)[j]) ++
        zeros segment.runway)) = segment.body.length := by
  have hsome : segment.records ≠ [] := by
    intro hnil
    rw [hnil] at hj
    exact absurd hj (Nat.not_lt_zero j)
  obtain ⟨front, hframes⟩ := frames_last hsome
  obtain ⟨front', last, hlast, hset⟩ : ∃ front' : Bytes, ∃ last : Byte, last ≠ 0 ∧
      (frames segment.records).set j (flipByte bit (frames segment.records)[j]) =
        front' ++ [last] := by
    simp only [hframes] at hj ⊢
    by_cases hfront : j < front.length
    · exact ⟨_, 68, by decide, set_append_left _ _ hfront⟩
    · have hend : j = front.length := by
        rw [length_append, length_singleton] at hj
        omega
      subst hend
      refine ⟨front, flipByte bit 68, by revert bit; decide, ?_⟩
      rw [set_append_right _ _ le_rfl, Nat.sub_self]
      simp
  have hlen := congrArg length hset
  rw [length_set, length_append, length_singleton] at hlen
  rw [hset, ← append_assoc, ← append_assoc, lastWrittenByte_zeros hlast, length_append,
    length_segmentHeader, length_body]
  · omega
  · rw [length_append, length_segmentHeader]
    omega

/-- A bit flipped in a record. -/
theorem SameRecords.record (hj : j < (frames segment.records).length) (bit : Fin 8) :
    SameRecords
      (replaySegment (segment.header ++
        ((frames segment.records).set j (flipByte bit (frames segment.records)[j]) ++
          zeros segment.runway)) segment.id next recovered)
      (replaySegment segment.file segment.id next recovered) := by
  have hrecords := length_le_frames segment.records
  refine SameRecords.of_walk h (length_segmentHeader _ _) rfl ?_ ?_
  · rw [Segment.log, length_append, length_append, length_set]
  · intro stop torn after hok
    rw [lastWrittenByte_flippedRecord segment hj bit] at hok
    rw [lastWrittenByte_file]
    have hfuel : segment.records.length ≤ segment.file.length := by
      rw [Segment.file, length_append, length_body]
      omega
    rcases replayFrom_flippedRecord h hj (flipByte_ne bit _) (zeros segment.runway)
      (length_body segment).ge hfuel with ⟨error, herror⟩ | hsame
    · rw [herror] at hok
      cases hok
    · rw [hsame] at hok
      exact ⟨stop, torn, hok⟩

/-- A byte changed in the runway. -/
theorem SameRecords.runway (k : Nat) (byte : Byte) :
    SameRecords
      (replaySegment (segment.header ++
        (frames segment.records ++ (zeros segment.runway).set k byte)) segment.id next recovered)
      (replaySegment segment.file segment.id next recovered) := by
  have hrecords := length_le_frames segment.records
  have hbody := length_body segment
  have hlow := body_le_lastWrittenByte segment ((zeros segment.runway).set k byte)
  have hflipped : segment.body ++ (zeros segment.runway).set k byte =
      segment.header ++
        (frames segment.records ++ (zeros segment.runway).set k byte) := by
    rw [Segment.body, append_assoc]
  obtain ⟨fuel, hfuel⟩ : ∃ fuel, segment.file.length = segment.records.length + fuel := by
    refine ⟨segment.file.length - segment.records.length, ?_⟩
    rw [Segment.file, length_append, hbody]
    omega
  refine SameRecords.of_walk h (length_segmentHeader _ _) rfl ?_ ?_
  · rw [Segment.log, length_append, length_append, length_set]
  · intro stop torn after hok
    rw [← hflipped, hfuel, replayFrom_pass h.encodable _ (by omega)] at hok
    obtain ⟨passed, hpass, hok⟩ := bind_eq_ok.mp hok
    have htail : after = passed := by
      rcases replayFrom_damagedRunway segment.runway k byte fuel _ _ passed with
        ⟨error, herror⟩ | ⟨torn', htorn⟩
      · rw [herror] at hok
        cases hok
      · rw [htorn] at hok
        cases hok
        rfl
    rw [Segment.log, lastWrittenByte_file, hfuel, replayFrom_pass h.encodable _ (by omega), hpass,
      ok_bind, htail]
    cases fuel with
    | zero => exact ⟨_, _, rfl⟩
    | succ fuel =>
      rw [replayFrom, if_pos (.inr (by omega))]
      exact ⟨_, _, rfl⟩

end

/-- **FLIPPED BIT**: replay of a segment with one bit flipped, active or sealed, is an error or
    recovers the records that replay of the segment recovers. -/
theorem flipped_bit_not_silent (h : segment.Sound) {i : Nat} (hi : i < segment.file.length)
    (bit : Fin 8) (next : Option Nat) (recovered : Recovered) :
    SameRecords (replaySegment (flipBit segment.file i bit) segment.id next recovered)
      (replaySegment segment.file segment.id next recovered) := by
  rw [show flipBit segment.file i bit = segment.file.set i (flipByte bit segment.file[i]) by
    rw [flipBit, modify_eq_set_getElem?, getElem?_eq_getElem hi]
    rfl]
  have hset : ∀ (file : Bytes) (heq : segment.file = file) (hlt : i < file.length),
      segment.file.set i (flipByte bit segment.file[i]) = file.set i (flipByte bit file[i]) := by
    rintro file rfl _
    rfl
  have hlt : i < (segment.header ++ segment.log).length := by
    rwa [← file_eq]
  rw [hset _ (file_eq segment) hlt]
  by_cases hhead : i < segment.header.length
  · rw [getElem_append_left hhead, set_append_left _ _ hhead]
    exact SameRecords.header h hhead (flipByte_ne bit _)
  · rw [not_lt] at hhead
    rw [getElem_append_right hhead, set_append_right _ _ hhead]
    simp only [Segment.log]
    by_cases hframes : i - segment.header.length <
        (frames segment.records).length
    · rw [getElem_append_left hframes, set_append_left _ _ hframes]
      exact SameRecords.record h hframes bit
    · rw [set_append_right _ _ (not_lt.mp hframes)]
      exact SameRecords.runway h _ _

/-- One put: with the version byte of its record turned into the older version, replay still
    succeeds, so the records are those of the segment. -/
theorem flipped_bit_not_silent_version :
    let segment : Segment := ⟨1, 1, [⟨1, [.put [107] [118]], 1, 1⟩], 4⟩
    segment.Sound ∧ 36 < segment.file.length ∧
      ∃ stop file recovered, replaySegment (flipBit segment.file 36 0) 1 none ⟨⟨0, 0, 0⟩, []⟩ =
          .ok (stop, file, recovered) ∧
        ∃ stop file, replaySegment segment.file 1 none ⟨⟨0, 0, 0⟩, []⟩ =
          .ok (stop, file, recovered) := by
  intro segment
  have hsound : segment.Sound := onePut_sound 4
  have hlong : 36 < segment.file.length := by decide +kernel
  have hok : replaySegment (flipBit segment.file 36 0) 1 none ⟨⟨0, 0, 0⟩, []⟩ =
      .ok (96, flipBit segment.file 36 0,
        ⟨⟨1, 1, 1⟩, [⟨1, [.put [107] [118]], 1, 1⟩]⟩) := by
    decide +kernel
  exact ⟨hsound, hlong, _, _, _, hok,
    flipped_bit_not_silent hsound hlong 0 none ⟨⟨0, 0, 0⟩, []⟩ _ _ _ hok⟩

end Segments

end Wal

end Vyrn
