import Vyrn.Engine.Accept
import Vyrn.Engine.Database
import Vyrn.Lib.Transition
import Vyrn.Wal.Record

/-!
# Records on the wire

A primary sends each new record in a message of its own, and to a replica that joins the ones it
lacks, as many together as a read of the log returns. The codec bounds the records of a message, the
length of each and the message itself, on both sides. What `archivedRecordsFrom` returns meets the
first and the last bound by itself (`gather_bounded`). Nothing bounds the length of a record before
the codec does: with its change record, one value of about the greatest size is over it.
**`log_carried_iff`**: the whole log is carried iff no record of it is over the bound.
-/

namespace Vyrn.Wire

open ByteString List Transition

/-! ## The codec -/

def protocolVersion : Nat := 6

def maxFrameSize : Nat := 64 * 1024 * 1024

def maxReplicaRecords : Nat := 4096

def maxReplicaRecord : Nat := 32 * 1024 * 1024

inductive CodecError where
  | io (reason : String)
  | malformed (reason : String)
  | fieldTooLong (field : String) (found maximum : Nat)
  | versionMismatch (found : Nat)
  deriving DecidableEq, Repr

/-- One record, behind its length. -/
def putBytes (output value : Bytes) : Except CodecError Bytes :=
  if maxReplicaRecord < value.length then
    .error (.fieldTooLong "replication record" value.length maxReplicaRecord)
  else if 256 ^ 4 ≤ value.length then .error (.malformed "byte field is too large")
  else .ok (output ++ (toBE 4 value.length ++ value))

/-- The envelope of a message of records: version, request, kind and count. -/
def envelope (count : Nat) : Bytes :=
  toBE 2 protocolVersion ++ toBE 8 0 ++ [52] ++ toBE 4 count

def encode (records : List Bytes) : Except CodecError Bytes :=
  if 256 ^ 4 ≤ records.length then .error (.malformed "too many replication records")
  else do
    let output ← records.foldlM putBytes (envelope records.length)
    if maxFrameSize < output.length then .error (.io "message exceeds frame limit")
    else .ok output

def getU32 (input : Bytes) : Except CodecError (Nat × Bytes) :=
  if input.length < 4 then .error (.malformed "truncated message")
  else .ok (fromBE (input.take 4), input.drop 4)

def getBytes (maximum : Nat) (input : Bytes) : Except CodecError (Bytes × Bytes) := do
  let (length, input) ← getU32 input
  if maximum < length then .error (.malformed "byte field exceeds limit")
  else if input.length < length then .error (.malformed "truncated message")
  else .ok (input.take length, input.drop length)

def getRecords : Nat → Bytes → Except CodecError (List Bytes × Bytes)
  | 0, input => .ok ([], input)
  | count + 1, input => do
    let (record, input) ← getBytes maxReplicaRecord input
    if record = [] then .error (.malformed "empty replication record")
    else do
      let (records, input) ← getRecords count input
      return (record :: records, input)

/-- A frame that is read as a message of records; the other kinds of message are left out. -/
def decode (frame : Bytes) : Except CodecError (List Bytes) :=
  if frame.length < 11 then .error (.malformed "truncated message")
  else if fromBE (frame.take 2) ≠ protocolVersion then
    .error (.versionMismatch (fromBE (frame.take 2)))
  else if slice frame 10 1 ≠ [52] then .error (.malformed "unknown message type")
  else do
    let (count, input) ← getU32 (frame.drop 11)
    if count = 0 ∨ maxReplicaRecords < count then
      .error (.malformed "replication record count is out of range")
    else do
      let (records, rest) ← getRecords count input
      if rest ≠ [] then .error (.malformed "trailing bytes") else .ok records

/-- The message is encoded, and the peer reads the same records from it. -/
def Carried (records : List Bytes) : Prop :=
  ∃ frame, encode records = .ok frame ∧ decode frame = .ok records

/-! ## Reading the log -/

/-- The records of one read: at most `maxRecords`, of at most `maxBytes` unless it is only one. -/
def gather (maxRecords maxBytes : Nat) : List Bytes → Nat → List Bytes → List Bytes
  | records, _, [] => records
  | records, bytes, record :: rest =>
    if records ≠ [] ∧ (maxRecords ≤ records.length ∨ maxBytes < bytes + record.length) then records
    else gather maxRecords maxBytes (records ++ [record]) (bytes + record.length) rest

def batchRecords : Nat := 1024

def batchBytes : Nat := 32 * 1024 * 1024

/-- What a turn of the catch-up reads and sends. -/
def archivedRecordsFrom (wal : List WalRecord) (fromLsn : Nat) : List Bytes :=
  gather batchRecords batchBytes [] 0
    ((wal.filter (fun record => fromLsn ≤ record.lsn)).map Wal.frame)

/-! ## Round trip -/

/-- The records of a message, each behind its length. -/
def body (records : List Bytes) : Bytes :=
  records.flatMap (fun record => toBE 4 record.length ++ record)

theorem body_cons (record : Bytes) (rest : List Bytes) :
    body (record :: rest) = toBE 4 record.length ++ (record ++ body rest) := by
  rw [body, flatMap_cons, append_assoc]
  rfl

theorem foldlM_putBytes {records : List Bytes}
    (h : ∀ record ∈ records, record.length ≤ maxReplicaRecord) (output : Bytes) :
    records.foldlM putBytes output = .ok (output ++ body records) := by
  induction records generalizing output with
  | nil => simp [body, pure, Except.pure]
  | cons record rest ih =>
    rw [forall_mem_cons] at h
    have hle := h.1
    have hshort : record.length < 256 ^ 4 := hle.trans_lt (by decide)
    have hput : putBytes output record = .ok (output ++ (toBE 4 record.length ++ record)) := by
      rw [putBytes, if_neg (not_lt.mpr hle), if_neg (not_le.mpr hshort)]
    rw [foldlM_cons, hput]
    show rest.foldlM putBytes _ = _
    rw [ih h.2, body_cons]
    simp only [append_assoc]

theorem getU32_toBE {n : Nat} (hn : n < 256 ^ 4) (rest : Bytes) :
    getU32 (toBE 4 n ++ rest) = .ok (n, rest) := by
  have hlen : (toBE 4 n).length = 4 := length_toBE 4 n
  rw [getU32, if_neg (by rw [length_append]; omega), take_left' hlen,
    drop_left' hlen, fromBE_toBE hn]

theorem getRecords_body {records : List Bytes}
    (h : ∀ record ∈ records, record ≠ [] ∧ record.length ≤ maxReplicaRecord) (rest : Bytes) :
    getRecords records.length (body records ++ rest) = .ok (records, rest) := by
  induction records with
  | nil => rfl
  | cons record records ih =>
    rw [forall_mem_cons] at h
    obtain ⟨hne, hle⟩ := h.1
    have hget : getBytes maxReplicaRecord
        (toBE 4 record.length ++ (record ++ (body records ++ rest)))
          = .ok (record, body records ++ rest) := by
      rw [getBytes, getU32_toBE (hle.trans_lt (by decide))]
      show ite _ _ _ = _
      rw [if_neg (not_lt.mpr hle), if_neg (by rw [length_append]; omega), take_left, drop_left]
    rw [body_cons, append_assoc, append_assoc, length_cons, getRecords, hget]
    show ite _ _ _ = _
    rw [if_neg hne, ih h.2]
    rfl

theorem length_body (records : List Bytes) :
    (body records).length = 4 * records.length + (records.map length).sum := by
  induction records with
  | nil => rfl
  | cons record rest ih =>
    simp only [body_cons, length_append, length_toBE, ih, length_cons, map_cons, sum_cons]
    omega

/-- **ROUND TRIP**: a message within the bounds is read as it was written. -/
theorem carried_of_bounds {records : List Bytes} (hne : records ≠ [])
    (hcount : records.length ≤ maxReplicaRecords)
    (hrecords : ∀ record ∈ records, record ≠ [] ∧ record.length ≤ maxReplicaRecord)
    (htotal : 15 + 4 * records.length + (records.map length).sum ≤ maxFrameSize) :
    Carried records := by
  have hshort : records.length < 256 ^ 4 := hcount.trans_lt (by decide)
  have hlen : (envelope records.length).length = 15 := by simp [envelope]
  refine ⟨envelope records.length ++ body records, ?_, ?_⟩
  · rw [encode, if_neg (not_le.mpr hshort),
      foldlM_putBytes (fun record hrec => (hrecords record hrec).2)]
    show ite _ _ _ = _
    rw [if_neg (by rw [length_append, hlen, length_body]; omega)]
  · have hdrop : (envelope records.length ++ body records).drop 11
        = toBE 4 records.length ++ (body records ++ []) := by
      rw [envelope, append_assoc, drop_left' (by simp), append_nil]
    have hversion : fromBE ((envelope records.length ++ body records).take 2)
        = protocolVersion := by
      simp only [envelope, append_assoc]
      rw [take_left' (length_toBE 2 _)]
      rfl
    have hkind : slice (envelope records.length ++ body records) 10 1 = [52] :=
      slice_middle (a := toBE 2 protocolVersion ++ toBE 8 0)
        (c := toBE 4 records.length ++ body records) (by simp [envelope]) (by simp) rfl
    rw [decode, if_neg (by rw [length_append, hlen]; omega), if_neg (not_not.mpr hversion),
      if_neg (not_not.mpr hkind), hdrop, getU32_toBE hshort]
    show ite _ _ _ = _
    rw [if_neg (not_or.mpr ⟨mt length_eq_zero_iff.mp hne, not_lt.mpr hcount⟩),
      getRecords_body hrecords]
    rfl

variable {record : Bytes}

/-- A record alone is carried when it is not over the bound, and otherwise not even encoded. -/
theorem carried_single (hne : record ≠ []) :
    Carried [record] ↔ record.length ≤ maxReplicaRecord := by
  constructor
  · rintro ⟨frame, hencode, -⟩
    by_contra hlong
    rw [encode, if_neg (by simp), foldlM_cons, putBytes, if_pos (not_le.mp hlong)] at hencode
    cases hencode
  · intro hle
    refine carried_of_bounds (cons_ne_nil _ _) (by simp [maxReplicaRecords])
      (forall_mem_singleton.mpr ⟨hne, hle⟩) ?_
    rw [maxReplicaRecord] at hle
    simp [maxFrameSize]
    omega

/-! ## What a read returns -/

/-- Within the bounds of a read. -/
def Bounded (records : List Bytes) : Prop :=
  records.length ≤ batchRecords ∧
    ((records.map length).sum ≤ batchBytes ∨ records.length ≤ 1)

variable {found : List Bytes}

theorem gather_bounded {records : List Bytes} (h : Bounded records) :
    Bounded (gather batchRecords batchBytes records (records.map length).sum found) := by
  -- a record joins the first of all, or when it fits
  induction found generalizing records with
  | nil => exact h
  | cons record rest ih =>
    rw [gather]
    split_ifs with hfull
    · exact h
    · have hsum : (records.map length).sum + record.length
          = ((records ++ [record]).map length).sum := by simp
      rw [hsum]
      refine ih ?_
      by_cases hfirst : records = []
      · rw [hfirst]
        exact ⟨by simp [batchRecords], .inr (by simp)⟩
      · obtain ⟨hroom, hfits⟩ := not_or.mp (fun hover => hfull ⟨hfirst, hover⟩)
        rw [Bounded, length_append, ← hsum]
        exact ⟨not_le.mp hroom, .inl (not_lt.mp hfits)⟩

theorem mem_gather :
    ∀ {records : List Bytes} {bytes : Nat},
      record ∈ gather batchRecords batchBytes records bytes found →
      record ∈ records ∨ record ∈ found := by
  induction found with
  | nil => exact .inl
  | cons first rest ih =>
    intro records bytes h
    rw [gather] at h
    split_ifs at h
    · exact .inl h
    · rcases ih h with hmem | hmem
      · exact (mem_append.mp hmem).imp_right
          (fun hfirst => mem_cons.mpr (.inl (mem_singleton.mp hfirst)))
      · exact .inr (mem_cons_of_mem _ hmem)

theorem frame_ne_nil (record : WalRecord) : Wal.frame record ≠ [] := by
  intro h
  have hlen := Wal.length_frame record
  rw [h, Wal.totalLen, Wal.recordHeaderLen] at hlen
  simp at hlen
  omega

/-- **CARRIED**: every record of the log can be sent, alone and with the others of any read, iff
    none is longer than the codec takes. -/
theorem log_carried_iff (db : Database) :
    ((∀ record ∈ db.engine.wal, Carried [Wal.frame record]) ∧
        ∀ fromLsn, archivedRecordsFrom db.engine.wal fromLsn ≠ [] →
          Carried (archivedRecordsFrom db.engine.wal fromLsn)) ↔
      ∀ record ∈ db.engine.wal, (Wal.frame record).length ≤ maxReplicaRecord := by
  constructor
  · intro h record hrec
    exact (carried_single (frame_ne_nil record)).mp (h.1 record hrec)
  · intro h
    refine ⟨fun record hrec => (carried_single (frame_ne_nil record)).mpr (h record hrec), ?_⟩
    intro fromLsn hne
    have hall : ∀ bytes ∈ archivedRecordsFrom db.engine.wal fromLsn,
        bytes ≠ [] ∧ bytes.length ≤ maxReplicaRecord := by
      intro bytes hmem
      obtain ⟨record, hrec, rfl⟩ :=
        mem_map.mp ((mem_gather hmem).resolve_left not_mem_nil)
      exact ⟨frame_ne_nil record, h record (mem_of_mem_filter hrec)⟩
    obtain ⟨hcount, hbytes⟩ : Bounded (archivedRecordsFrom db.engine.wal fromLsn) :=
      @gather_bounded _ [] ⟨Nat.zero_le _, .inr (Nat.zero_le _)⟩
    have hsum : ((archivedRecordsFrom db.engine.wal fromLsn).map length).sum
        ≤ maxReplicaRecord := by
      rcases hbytes with hfits | hone
      · exact hfits
      · obtain ⟨bytes, hbytes⟩ := length_eq_one_iff.mp (le_antisymm hone (length_pos_of_ne_nil hne))
        rw [hbytes] at hall ⊢
        simpa using (hall bytes mem_cons_self).2
    rw [batchRecords] at hcount
    rw [maxReplicaRecord] at hsum
    exact carried_of_bounds hne (hcount.trans (by decide)) hall (by rw [maxFrameSize]; omega)

/-- **OVER THE BOUND**: with the change log on, as a server has it, one put of 14 bytes less than
    the greatest value is accepted. Its record holds the value twice and cannot be sent. -/
theorem large_value_not_carried :
    ∃ value db, Run Database.Step Database.Fits Database.empty
        [.reopen ⟨0, true⟩ 1 0 ⟨0, 0, []⟩ [], .perform (.writeBatch [.put [1] value])] db ∧
      ∃ record ∈ db.engine.wal, ¬ Carried [Wal.frame record] := by
  obtain ⟨value, hvalue⟩ : ∃ value : Bytes, value.length = maxValueSize - 14 :=
    ⟨replicate (maxValueSize - 14) 0, length_replicate⟩
  have hpayload : 4 + payloadLen [.put [1] value] = maxValueSize := by
    simp [payloadLen, BatchOperation.key, BatchOperation.valueLen, BatchOperation.value?, hvalue,
      opHeaderLen, maxValueSize]
  have hallowed : BatchOperation.Allowed (.put [1] value) := ⟨cons_ne_nil _ _,
    show 1 ≤ maxKeySize by decide, by simp [BatchOperation.valueLen, BatchOperation.value?, hvalue],
    rfl⟩
  have hroom : HasRoom Engine.logging 0 [] [.put [1] value] :=
    ⟨by decide, .inl (Nat.zero_le _), fun _ => hpayload.le, by rintro ⟨⟩⟩
  obtain ⟨results, after, levels, hrun, -, -, -, hcases⟩ :=
    applyBatch_serves logging_serves (atRest_mvcc PageTree.fresh) hroom.reaches
      (hroom.accepts logging_serves rfl (forall_mem_singleton.mpr hallowed.valid)
        (forall_mem_singleton.mpr hallowed.user))
  obtain ⟨hnil, -⟩ | ⟨-, hlog, -⟩ := hcases
  · cases hnil
  obtain ⟨record, hwal, -, hops, -⟩ := hlog.wal
  let opened : Database := { Database.empty with engine := Engine.logging }
  have hreopen : Database.empty.act (.reopen ⟨0, true⟩ 1 0 ⟨0, 0, []⟩ []) = .ok opened := rfl
  have hact : opened.act (.perform (.writeBatch [.put [1] value]))
      = .ok { opened with engine := after } := by
    have hbatch : opened.engine.writeBatch [.put [1] value] = .ok (results, after) := hrun
    rw [Database.act, Engine.perform, hbatch]
    rfl
  refine ⟨value, _, (Run.start.next (by decide) (.done (by decide) hreopen)).next trivial
    (.done (by simp [Database.Allows]) hact), record, ?_, ?_⟩
  · rw [show Database.engine { opened with engine := after } = after from rfl, hwal]
    exact mem_append_right _ mem_cons_self
  · have hchange : (encodeBatch [BatchOperation.change (.put [1] value)]).length = maxValueSize :=
      (encodeBatch_length [.put [1] value]).trans hpayload
    have hops : record.operations = [.put [1] value, .put (changeLogKey 1)
      (encodeBatch [BatchOperation.change (.put [1] value)])] := hops
    rw [carried_single (frame_ne_nil record), Wal.length_frame, hops]
    simp [Wal.totalLen, Wal.encodePayload, Wal.encodeOperation, hvalue, hchange,
      length_changeLogKey, maxValueSize, maxReplicaRecord, Wal.recordHeaderLen, Wal.recordFooterLen]

end Vyrn.Wire
