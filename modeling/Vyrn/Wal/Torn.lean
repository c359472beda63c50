import Vyrn.Wal.Log

/-!
# A torn tail

A crash may leave the record that was being appended half written: whole records, a proper part of
the next one, zeros. Replay has to find the end of the records from that alone, although a record
may hold zeros anywhere. It does, because the last byte of a record is never zero
(`readFrame_torn`). **`torn_tail_exact`**: the whole records are recovered, the torn one is cut off,
and records appended there are found by the next replay.
-/

namespace Vyrn

open ByteString List

namespace Wal

/-! ## A torn frame -/

section Torn

/-- What a crash leaves of a record: nothing, or a part that is not the whole. -/
def TornFrame (torn : Bytes) : Prop :=
  torn = [] ∨ ∃ record, Encodable record ∧ torn <+: frame record ∧
    torn.length < (frame record).length

variable {segment writtenThrough offset : Nat} {record : WalRecord} {torn : Bytes}

/-- **TORN FRAME**: a frame that reaches past the last written byte ends the segment. -/
theorem readFrame_torn (h : Encodable record) (hpart : torn <+: frame record)
    (hproper : torn.length < (frame record).length) (more : Bytes)
    (hwritten : writtenThrough ≤ offset + torn.length) :
    readFrame segment true writtenThrough offset (torn ++ more) = .ok .torn := by
  rw [readFrame]
  split_ifs with hshort
  · rfl
  · -- the header was written whole, so the length it names can be trusted
    have hlong : recordHeaderLen ≤ torn.length := by omega
    have hhead : (torn ++ more).take recordHeaderLen = recordHeader record := by
      obtain ⟨rest, hrest⟩ := hpart
      rw [← take_frame, ← hrest, take_append_of_le_length hlong, take_append_of_le_length hlong]
    obtain ⟨hcount, hsize⟩ := h.sized
    have hlen : (frame record).length = totalLen (headerOf record).payloadLen :=
      length_frame record
    simp only [hhead, recordHeader_magic, recordHeader_known, recordHeader_crc,
      read_recordHeader h, ne_eq, not_true_eq_false, Bool.not_true, Bool.false_eq_true, or_self,
      if_false, hcount, hsize]
    rw [if_pos (.inr (by omega))]
    rfl

/-- The first byte of a record is not zero. -/
theorem torn_head (hpart : torn <+: frame record) (hsome : torn ≠ []) :
    ∃ back : Bytes, torn = 86 :: back := by
  obtain ⟨rest, hrest⟩ := hpart
  cases torn with
  | nil => exact absurd rfl hsome
  | cons byte back =>
    have hbyte : byte = 86 := (cons.inj hrest).1
    exact ⟨back, by rw [hbyte]⟩

end Torn

/-! ## Replay of the image -/

section Image

variable {segment : Segment} {recovered : Recovered} {torn : Bytes}

/-- The walk passes the whole records and stops where the torn one begins. -/
theorem replayFrom_torn (h : segment.Sound) (htorn : TornFrame torn) (n : Nat)
    (hgoes : segment.firstLsn ≤ recovered.state.lsn + 1) :
    ∃ cut, replayFrom segment.id true (lastWrittenByte (segment.body ++ torn ++ zeros n))
        segment.firstLsn (segment.body ++ torn ++ zeros n).length
        (frames segment.records ++ (torn ++ zeros n)) segmentHeaderLen false recovered =
      .ok (segment.body.length, cut, recovered.extend segment.records) ∧
      (cut = false → torn = []) := by
  have hhigh : lastWrittenByte (segment.body ++ torn ++ zeros n) ≤
      segment.body.length + torn.length := by
    rw [← length_append]
    refine lastWrittenByte_le ?_ n
    rw [length_append, length_body]
    omega
  obtain ⟨fuel, hwalk⟩ := replayFrom_body h true hgoes (torn ++ zeros n)
  rw [← append_assoc] at hwalk
  rw [hwalk, replayFrom]
  rcases htorn with rfl | ⟨record, hrecord, hpart, hproper⟩
  · rw [length_nil, add_zero] at hhigh
    rw [if_pos (.inr hhigh)]
    exact ⟨false, rfl, fun _ => rfl⟩
  · by_cases hempty : torn = []
    · subst hempty
      rw [length_nil, add_zero] at hhigh
      rw [if_pos (.inr hhigh)]
      exact ⟨false, rfl, fun _ => rfl⟩
    · obtain ⟨back, rfl⟩ := torn_head hpart hempty
      have hbegun : segment.body.length <
          lastWrittenByte (segment.body ++ 86 :: back ++ zeros n) := by
        rw [append_assoc, cons_append]
        exact lt_lastWrittenByte segment.body _ (by decide)
      rw [if_neg, readFrame_torn hrecord hpart hproper _ hhigh]
      · exact ⟨true, rfl, by rintro ⟨⟩⟩
      · rintro (hnil | _)
        · cases hnil
        · omega

/-- **TORN TAIL**: the whole records are recovered, and behind them the file is empty or zero. -/
theorem replaySegment_torn (h : segment.Sound) (htorn : TornFrame torn) (n : Nat)
    (recovered : Recovered) (hgoes : segment.firstLsn ≤ recovered.state.lsn + 1) :
    ∃ m, replaySegment (segment.body ++ torn ++ zeros n) segment.id none recovered =
      .ok (segment.body.length, segment.body ++ zeros m, recovered.extend segment.records) := by
  have hfile : segment.body ++ torn ++ zeros n =
      segment.header ++
        (frames segment.records ++ (torn ++ zeros n)) := by
    rw [Segment.body, append_assoc, append_assoc]
  obtain ⟨cut, hwalk, hwhole⟩ := replayFrom_torn h htorn n hgoes
  have hcut : ∃ m, (if cut = true then
      (segment.body ++ torn ++ zeros n).take segment.body.length else
      segment.body ++ torn ++ zeros n) = segment.body ++ zeros m := by
    cases cut with
    | true =>
      refine ⟨0, ?_⟩
      rw [if_pos rfl, append_assoc, take_left]
      exact (append_nil _).symm
    | false =>
      refine ⟨n, ?_⟩
      rw [if_neg Bool.false_ne_true, hwhole rfl, append_nil]
  obtain ⟨m, hm⟩ := hcut
  refine ⟨m, ?_⟩
  rw [replaySegment_intact h.id h.firstLsn hfile (length_segmentHeader _ _) rfl,
    if_neg (by simp), Option.isNone_none, hwalk]
  dsimp only [bind, Except.bind]
  rw [hm]

end Image

/-! ## Crash, replay, append, replay -/

/-- Appends records one after the other. -/
def Writer.appendAll (writer : Writer) (records : List WalRecord) : Writer :=
  records.foldl (fun writer record => writer.append (frame record)) writer

/-- A segment with its first `j` records. -/
def Segment.upTo (segment : Segment) (j : Nat) : Segment :=
  { segment with records := segment.records.take j }

/-- The file a writer leaves that began with the segment's header and appended its records. -/
def Segment.written (segment : Segment) (segmentSize : Nat) : Bytes :=
  ((Writer.new segment.header segmentHeaderLen
    segmentSize).appendAll segment.records).file

/-- What a crash leaves of a file: the bytes before `cut`, and zeros. -/
def crashImage (file : Bytes) (cut runway : Nat) : Bytes := file.take cut ++ zeros runway

section Crash

variable {segment : Segment} {j cut : Nat}

theorem Writer.Lays.appendAll {writer : Writer} {body : Bytes} (h : writer.Lays body)
    (records : List WalRecord) : (writer.appendAll records).Lays (body ++ frames records) :=
  Log.lays_foldl h records

theorem Segment.Sound.upTo (h : segment.Sound) (j : Nat) : (segment.upTo j).Sound := by
  have hsplit := h.lsns
  rw [← take_append_drop j segment.records] at hsplit
  exact ⟨h.id, h.firstLsn, (consecutive_append.mp hsplit).1,
    fun record hrecord => h.encodable record (mem_of_mem_take hrecord)⟩

/-- The written file is the segment and a runway. -/
theorem written_eq (segment : Segment) (segmentSize : Nat) :
    ∃ n, segment.written segmentSize = segment.body ++ zeros n := by
  have hnew : (Writer.new segment.header segmentHeaderLen
      segmentSize).Lays segment.header := by
    have hlays := Writer.new_lays segment.header 0
      (append_nil _).symm segmentSize
    rwa [length_segmentHeader] at hlays
  obtain ⟨⟨n, hfile, -⟩, -, -⟩ := hnew.appendAll segment.records
  exact ⟨n, hfile⟩

/-- A cut between the end of one record and the end of the next leaves whole records and a torn
    one. -/
theorem crashImage_eq (h : segment.Sound) (segmentSize runway : Nat)
    (hlow : (segment.upTo j).body.length ≤ cut)
    (hhigh : j < segment.records.length → cut < (segment.upTo (j + 1)).body.length) :
    ∃ torn n, TornFrame torn ∧ crashImage (segment.written segmentSize) cut runway =
      (segment.upTo j).body ++ torn ++ zeros n := by
  obtain ⟨n, hwritten⟩ := written_eq segment segmentSize
  obtain ⟨k, rfl⟩ := Nat.exists_eq_add_of_le hlow
  have hbody : segment.body = (segment.upTo j).body ++ frames (segment.records.drop j) := by
    rw [Segment.body, Segment.body, append_assoc]
    show _ = segment.header ++
      (frames (segment.records.take j) ++ frames (segment.records.drop j))
    rw [← frames_append, take_append_drop]
  rw [crashImage, hwritten, hbody, append_assoc, take_length_add_append]
  by_cases hnext : j < segment.records.length
  · -- the cut falls inside the next record
    have hupTo : (segment.upTo (j + 1)).body.length =
        (segment.upTo j).body.length + (frame segment.records[j]).length := by
      rw [length_body, length_body, Segment.upTo, Segment.upTo, take_add_one,
        getElem?_eq_getElem hnext, Option.toList_some, frames_append, length_append,
        add_assoc]
      simp [frames]
    have hproper : k < (frame segment.records[j]).length := by
      have := hhigh hnext
      omega
    rw [drop_eq_getElem_cons hnext, frames_cons, append_assoc (frame _),
      take_append_of_le_length hproper.le]
    refine ⟨_, runway, .inr ⟨_, h.encodable _ (getElem_mem hnext), List.take_prefix _ _, ?_⟩, rfl⟩
    rw [length_take]
    omega
  · rw [drop_eq_nil_of_le (not_lt.mp hnext)]
    refine ⟨[], min k n + runway, .inl rfl, ?_⟩
    simp [frames, zeros, take_replicate]

/-- **TORN-TAIL RECOVERY**: cut a segment file inside its record `j`, with zeros behind the cut.
    Replay recovers the first `j` records and returns where they end; records appended there are
    recovered behind them by the next replay. -/
theorem torn_tail_exact (h : segment.Sound) (hlow : (segment.upTo j).body.length ≤ cut)
    (hhigh : j < segment.records.length → cut < (segment.upTo (j + 1)).body.length)
    (segmentSize runway : Nat) (recovered : Recovered)
    (hgoes : segment.firstLsn ≤ recovered.state.lsn + 1) :
    ∃ file, replaySegment (crashImage (segment.written segmentSize) cut runway) segment.id none
        recovered =
      .ok ((segment.upTo j).body.length, file, recovered.extend (segment.records.take j)) ∧
      ∀ (more : List WalRecord) (reopenedSize : Nat),
        Consecutive (segment.firstLsn + (segment.records.take j).length) more →
        (∀ record ∈ more, Encodable record) →
        let writer := (Writer.new file (segment.upTo j).body.length reopenedSize).appendAll more
        replaySegment writer.file segment.id none recovered =
          .ok (writer.offset, writer.file,
            recovered.extend (segment.records.take j ++ more)) := by
  have hkept := h.upTo j
  obtain ⟨torn, n, htorn, himage⟩ := crashImage_eq h segmentSize runway hlow hhigh
  obtain ⟨m, hreplay⟩ := replaySegment_torn hkept htorn n recovered hgoes
  refine ⟨(segment.upTo j).body ++ zeros m, ?_, ?_⟩
  · rw [himage]
    exact hreplay
  · intro more reopenedSize hlsns hencodable
    obtain ⟨⟨k, hfile, -⟩, hoffset, -⟩ :=
      (Writer.new_lays (segment.upTo j).body m rfl reopenedSize).appendAll more
    -- the file is that of the kept records and the new ones
    have hsound : Segment.Sound ⟨segment.id, segment.firstLsn, segment.records.take j ++ more, k⟩ :=
      ⟨h.id, h.firstLsn, consecutive_append.mpr ⟨hkept.lsns, hlsns⟩,
        forall_mem_append.mpr ⟨hkept.encodable, hencodable⟩⟩
    have hbody : (segment.upTo j).body ++ frames more =
        Segment.body ⟨segment.id, segment.firstLsn, segment.records.take j ++ more, k⟩ := by
      rw [Segment.body, Segment.body, frames_append, append_assoc]
      rfl
    obtain ⟨stop, hagain, hstop⟩ := replaySegment_file hsound recovered none hgoes (by rintro _ ⟨⟩)
    rw [hbody] at hfile hoffset
    dsimp only
    rw [hfile, hoffset, ← hstop rfl]
    exact hagain

/-- A segment that holds one put. -/
theorem onePut_sound (runway : Nat) :
    Segment.Sound ⟨1, 1, [⟨1, [.put [107] [118]], 1, 1⟩], runway⟩ := by
  refine ⟨(by decide : 1 < 256 ^ 8), (by decide : 1 < 256 ^ 8), ⟨rfl, trivial⟩, ?_⟩
  intro record hrecord
  rw [mem_singleton.mp hrecord]
  refine ⟨by decide, by decide, by decide, by simp, ?_, by decide⟩
  intro operation hop
  rw [mem_singleton.mp hop]
  rfl

/-- One put, cut after eight bytes of its record. -/
theorem torn_tail_exact_half_put :
    let segment : Segment := ⟨1, 1, [⟨1, [.put [107] [118]], 1, 1⟩], 0⟩
    segment.Sound ∧ (segment.upTo 0).body.length ≤ 40 ∧ 40 < (segment.upTo 1).body.length ∧
      ∃ file, replaySegment (crashImage (segment.written 64) 40 5) 1 none ⟨⟨0, 0, 0⟩, []⟩ =
        .ok ((segment.upTo 0).body.length, file, ⟨⟨0, 0, 0⟩, []⟩) := by
  intro segment
  have hsound : segment.Sound := onePut_sound 0
  have hlow : (segment.upTo 0).body.length ≤ 40 := by
    rw [length_body]
    decide
  have hhigh : 40 < (segment.upTo 1).body.length := by
    rw [length_body]
    show 40 < 32 + (frame _ ++ []).length
    rw [append_nil, length_frame]
    decide
  obtain ⟨file, hreplay, -⟩ := torn_tail_exact hsound hlow (fun _ => hhigh) 64 5
    ⟨⟨0, 0, 0⟩, []⟩ (Nat.le_refl 1)
  exact ⟨hsound, hlow, hhigh, file, hreplay⟩

end Crash

end Wal

end Vyrn
