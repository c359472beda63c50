import Vyrn.Engine.Replay

/-!
# The bytes of a log record

A commit is one record of the write-ahead log: a 45-byte header (magic, version, LSN, operation
count, payload length, payload checksum, root, entry count, checksum of the header itself), the
payload with the operations, and an 8-byte footer (record length, end mark). A payload is accepted
and decodes to its operations (`validatePayload_encode`, `decodeOperations_encode`), and no other
bytes are accepted as one (**`payload_canonical`**).
-/

namespace Vyrn

open ByteString List

namespace Wal

/-! ## The code -/

def recordMagic : Bytes := [86, 84, 88, 78]

def recordEnd : Bytes := [86, 69, 78, 68]

def recordVersion : Byte := 5

/-- Records from before the header checksum existed. -/
def legacyRecordVersion : Byte := 4

def version : Byte := 4

/-- Where the header's own checksum is. -/
def recordHeaderCrcAt : Nat := 41

def recordHeaderLen : Nat := 45

def recordFooterLen : Nat := 8

def opHeaderLen : Nat := 9

def opPut : Byte := 1

def opDelete : Byte := 2

def checksum (bytes : Bytes) : Nat := (crc32 bytes).toNat

def transactionChecksum (lsn operationCount : Nat) (payload : Bytes) (root len : Nat) : Nat :=
  checksum ([version] ++ toBE 8 lsn ++ toBE 4 operationCount ++ toBE 4 payload.length ++
    toBE 8 root ++ toBE 8 len ++ payload)

def encodeOperation : BatchOperation → Bytes
  | .put key value => [opPut] ++ toBE 4 key.length ++ toBE 4 value.length ++ key ++ value
  | .delete key => [opDelete] ++ toBE 4 key.length ++ toBE 4 0 ++ key

def encodePayload (operations : List BatchOperation) : Bytes :=
  (operations.map encodeOperation).flatten

/-- The size of a record with this payload. -/
def totalLen (payloadLen : Nat) : Nat := recordHeaderLen + payloadLen + recordFooterLen

/-- The fields of a record header. -/
structure Header where
  lsn : Nat
  operationCount : Nat
  payloadLen : Nat
  expectedChecksum : Nat
  root : Nat
  len : Nat

/-- The header of a record. -/
def headerOf (record : WalRecord) : Header :=
  let payload := encodePayload record.operations
  { lsn := record.lsn
    operationCount := record.operations.length
    payloadLen := payload.length
    expectedChecksum := transactionChecksum record.lsn record.operations.length payload record.root
      record.len
    root := record.root
    len := record.len }

/-- A header's bytes, without its own checksum. -/
def Header.encode (header : Header) : Bytes :=
  recordMagic ++ [recordVersion] ++ packed [(8, header.lsn), (4, header.operationCount),
    (4, header.payloadLen), (4, header.expectedChecksum), (8, header.root), (8, header.len)]

def Header.read (header : Bytes) : Header :=
  ⟨fromBE (slice header 5 8), fromBE (slice header 13 4), fromBE (slice header 17 4),
    fromBE (slice header 21 4), fromBE (slice header 25 8), fromBE (slice header 33 8)⟩

def recordHeader (record : WalRecord) : Bytes :=
  (headerOf record).encode ++ toBE 4 (checksum (headerOf record).encode)

def recordFooter (total : Nat) : Bytes := toBE 4 total ++ recordEnd

abbrev footerOf (record : WalRecord) : Bytes :=
  recordFooter (totalLen (encodePayload record.operations).length)

/-- The bytes of a record. -/
def frame (record : WalRecord) : Bytes :=
  recordHeader record ++ encodePayload record.operations ++ footerOf record

/-- The bytes a commit logs, refused where a length does not fit its field. -/
def encodeRecord (record : WalRecord) : Except Error Bytes := do
  if 256 ^ 4 ≤ record.operations.length then
    throw (.io "too many operations in transaction")
  record.operations.forM (fun operation => match operation with
    | .put key value =>
      if 256 ^ 4 ≤ key.length then throw .keyTooLarge
      else if 256 ^ 4 ≤ value.length then throw .valueTooLarge else pure ()
    | .delete key => if 256 ^ 4 ≤ key.length then throw .keyTooLarge else pure ())
  if 256 ^ 4 ≤ totalLen (encodePayload record.operations).length then
    throw (.io "transaction exceeds WAL record limit")
  return frame record

/-- The operations of a payload, from where `rest` begins; returns what is left. -/
def validateOperations : Nat → Bytes → Except String Bytes
  | 0, rest => .ok rest
  | count + 1, rest =>
    if rest.length < opHeaderLen then .error "truncated transaction operation"
    else
      let op := rest.take 1
      let keyLen := fromBE (slice rest 1 4)
      let valueLen := fromBE (slice rest 5 4)
      if (op ≠ [opPut] ∧ op ≠ [opDelete]) ∨ keyLen = 0 ∨ maxKeySize < keyLen ∨
          maxValueSize < valueLen ∨ (op = [opDelete] ∧ valueLen ≠ 0) then
        .error "invalid transaction operation"
      else if rest.length < opHeaderLen + keyLen + valueLen then
        .error "truncated transaction operation"
      else validateOperations count (rest.drop (opHeaderLen + keyLen + valueLen))

def validatePayload (payload : Bytes) (operationCount : Nat) : Except String Unit :=
  match validateOperations operationCount payload with
  | .error reason => .error reason
  | .ok rest => if rest = [] then .ok () else .error "trailing transaction payload"

/-- A payload split back into its operations. -/
def decodeOperations : Nat → Bytes → List BatchOperation
  | 0, _ => []
  | count + 1, rest =>
    let keyLen := fromBE (slice rest 1 4)
    let valueLen := fromBE (slice rest 5 4)
    let key := slice rest opHeaderLen keyLen
    let operation :=
      if rest.take 1 = [opPut] then .put key (slice rest (opHeaderLen + keyLen) valueLen)
      else .delete key
    operation :: decodeOperations count (rest.drop (opHeaderLen + keyLen + valueLen))

def recordVersionKnown (header : Bytes) : Bool :=
  slice header 4 1 = [legacyRecordVersion] || slice header 4 1 = [recordVersion]

def recordHeaderCrcOk (header : Bytes) : Bool :=
  slice header 4 1 ≠ [recordVersion] ||
    checksum (header.take recordHeaderCrcAt) = fromBE (slice header recordHeaderCrcAt 4)

/-! ## Payloads -/

section Payload

variable {operation : BatchOperation} {operations : List BatchOperation}

/-- The value an operation carries: none for a delete. -/
def payloadValue : BatchOperation → Bytes
  | .put _ value => value
  | .delete _ => []

def opCode : BatchOperation → Byte
  | .put .. => opPut
  | .delete _ => opDelete

theorem encodeOperation_eq (operation : BatchOperation) :
    encodeOperation operation = [opCode operation] ++ toBE 4 operation.key.length ++
      toBE 4 (payloadValue operation).length ++ operation.key ++ payloadValue operation := by
  cases operation with
  | put => rfl
  | delete key => simp [encodeOperation, opCode, payloadValue, BatchOperation.key]

theorem length_encodeOperation (operation : BatchOperation) :
    (encodeOperation operation).length =
      opHeaderLen + operation.key.length + (payloadValue operation).length := by
  rw [encodeOperation_eq]
  simp [opHeaderLen]
  omega

theorem encodePayload_cons (operation : BatchOperation) (operations : List BatchOperation) :
    encodePayload (operation :: operations) =
      encodeOperation operation ++ encodePayload operations := rfl

theorem valid_bounds (h : operation.Valid) :
    0 < operation.key.length ∧ operation.key.length ≤ maxKeySize ∧
      (payloadValue operation).length ≤ maxValueSize := by
  cases operation with
  | put =>
    obtain ⟨_, hkey, hvalue⟩ := bind_eq_ok.mp h
    obtain ⟨hpos, hmax⟩ := validateKey_ok hkey
    exact ⟨hpos, hmax, validateValue_ok hvalue⟩
  | delete =>
    obtain ⟨hpos, hmax⟩ := validateKey_ok h
    exact ⟨hpos, hmax, Nat.zero_le _⟩

/-- An operation's parts, read back from where it begins. -/
theorem operation_parts (h : operation.Valid) (more rest : Bytes)
    (hrest : rest = encodeOperation operation ++ more) :
    rest.take 1 = [opCode operation] ∧ fromBE (slice rest 1 4) = operation.key.length ∧
      fromBE (slice rest 5 4) = (payloadValue operation).length ∧
      slice rest opHeaderLen operation.key.length = operation.key ∧
      slice rest (opHeaderLen + operation.key.length) (payloadValue operation).length =
        payloadValue operation ∧
      rest.drop (opHeaderLen + operation.key.length + (payloadValue operation).length) = more := by
  obtain ⟨-, hkey, hvalue⟩ := valid_bounds h
  rw [maxKeySize] at hkey
  rw [maxValueSize] at hvalue
  have hparts : rest = [opCode operation] ++ toBE 4 operation.key.length ++
      toBE 4 (payloadValue operation).length ++ operation.key ++ payloadValue operation ++ more := by
    rw [hrest, encodeOperation_eq]
  refine ⟨by simp [hparts], ?_, ?_, ?_, ?_, ?_⟩
  · exact fromBE_slice (a := [opCode operation]) (c := toBE 4 (payloadValue operation).length ++
      operation.key ++ payloadValue operation ++ more) (by simp [hparts]) rfl (by omega)
  · exact fromBE_slice (a := [opCode operation] ++ toBE 4 operation.key.length)
      (c := operation.key ++ payloadValue operation ++ more) (by simp [hparts]) (by simp)
      (by omega)
  · exact slice_middle (a := [opCode operation] ++ toBE 4 operation.key.length ++
      toBE 4 (payloadValue operation).length) (c := payloadValue operation ++ more)
      (by simp [hparts]) (by simp [opHeaderLen]) rfl
  · exact slice_middle (c := more) hparts (by simp [opHeaderLen]; omega) rfl
  · rw [hrest, ← length_encodeOperation, drop_left]

section

variable (h : ∀ operation ∈ operations, operation.Valid)
include h

/-- **PAYLOAD**: the operations of a payload are accepted, and what follows them is left. -/
theorem validateOperations_encode (more : Bytes) :
    validateOperations operations.length (encodePayload operations ++ more) = .ok more := by
  induction operations with
  | nil => rfl
  | cons operation operations ih =>
    rw [forall_mem_cons] at h
    have hvalid := h.1
    obtain ⟨_, _⟩ := valid_bounds hvalid
    obtain ⟨hop, hkeyLen, hvalueLen, -, -, hdrop⟩ := operation_parts hvalid
      (encodePayload operations ++ more) (encodePayload (operation :: operations) ++ more)
      (by rw [encodePayload_cons, append_assoc])
    have hlen : opHeaderLen + operation.key.length + (payloadValue operation).length ≤
        (encodePayload (operation :: operations) ++ more).length := by
      rw [encodePayload_cons, append_assoc, length_append, length_encodeOperation]
      omega
    rw [length_cons, validateOperations, if_neg (by omega)]
    simp only [hop, hkeyLen, hvalueLen]
    rw [if_neg, if_neg (by omega), hdrop]
    · exact ih h.2
    · rintro (⟨hput, hdelete⟩ | _ | hlarge | hlarge | ⟨hdelete, hcarries⟩)
      · cases operation with
        | put => exact hput rfl
        | delete => exact hdelete rfl
      · omega
      · omega
      · omega
      · cases operation with
        | put => exact absurd hdelete (by simp [opCode, opPut, opDelete])
        | delete => exact hcarries rfl

theorem validatePayload_encode :
    validatePayload (encodePayload operations) operations.length = .ok () := by
  have hall := validateOperations_encode h []
  rw [append_nil] at hall
  rw [validatePayload, hall]
  rfl

theorem decodeOperations_encode (more : Bytes) :
    decodeOperations operations.length (encodePayload operations ++ more) = operations := by
  induction operations with
  | nil => rfl
  | cons operation operations ih =>
    rw [forall_mem_cons] at h
    obtain ⟨hop, hkeyLen, hvalueLen, hkey, hvalue, hdrop⟩ :=
      operation_parts h.1 (encodePayload operations ++ more)
        (encodePayload (operation :: operations) ++ more)
        (by rw [encodePayload_cons, append_assoc])
    rw [length_cons, decodeOperations]
    simp only [hop, hkeyLen, hvalueLen, hkey, hvalue, hdrop]
    rw [ih h.2]
    cases operation with
    | put => rfl
    | delete => rfl

end

theorem valid_of_bounds (hpos : 0 < operation.key.length) (hkey : operation.key.length ≤ maxKeySize)
    (hvalue : (payloadValue operation).length ≤ maxValueSize) : operation.Valid := by
  have hvalid : validateKey operation.key = .ok () := by
    rw [validateKey, if_neg (length_pos_iff.mp hpos), if_neg (not_lt.mpr hkey)]
  cases operation with
  | put => exact bind_eq_ok.mpr ⟨(), hvalid, if_neg (not_lt.mpr hvalue)⟩
  | delete => exact hvalid

/-- What is accepted is what some operations are written as, and what is left. -/
theorem validateOperations_ok {count : Nat} {rest left : Bytes}
    (h : validateOperations count rest = .ok left) :
    ∃ operations, operations.length = count ∧ (∀ operation ∈ operations, operation.Valid) ∧
      encodePayload operations ++ left = rest := by
  induction count generalizing rest left with
  | zero =>
    cases h
    exact ⟨[], rfl, forall_mem_nil _, rfl⟩
  | succ count ih =>
    have hcut : ∀ start n, slice rest start n ++ rest.drop (start + n) = rest.drop start := by
      intro start n
      rw [slice, ← drop_drop, take_append_drop]
    have hfield : ∀ start, start + 4 ≤ rest.length →
        toBE 4 (fromBE (slice rest start 4)) = slice rest start 4 := by
      intro start hle
      have hback := toBE_fromBE (slice rest start 4)
      rwa [length_slice, min_eq_left (by omega)] at hback
    rw [validateOperations] at h
    dsimp only at h
    split_ifs at h with hshort hbad hlen
    obtain ⟨operations, rfl, hvalid, hrest⟩ := ih h
    simp only [not_or, not_and, not_not, not_lt] at hbad hshort hlen
    obtain ⟨hcode, _, _, _, hdelete⟩ := hbad
    rw [opHeaderLen] at hshort
    generalize hk : fromBE (slice rest 1 4) = keyLen at *
    generalize hv : fromBE (slice rest 5 4) = valueLen at *
    obtain ⟨operation, hop, hkey, hvalue⟩ : ∃ operation : BatchOperation,
        [opCode operation] = rest.take 1 ∧ operation.key = slice rest opHeaderLen keyLen ∧
        payloadValue operation = slice rest (opHeaderLen + keyLen) valueLen := by
      by_cases hput : rest.take 1 = [opPut]
      · exact ⟨.put _ _, hput.symm, rfl, rfl⟩
      · refine ⟨.delete _, (hcode hput).symm, rfl, ?_⟩
        rw [hdelete (hcode hput)]
        rfl
    have hkeyLen : operation.key.length = keyLen := by
      rw [hkey, length_slice]
      omega
    have hvalueLen : (payloadValue operation).length = valueLen := by
      rw [hvalue, length_slice]
      omega
    refine ⟨operation :: operations, rfl, forall_mem_cons.mpr
      ⟨valid_of_bounds (by omega) (by omega) (by omega), hvalid⟩, ?_⟩
    rw [encodePayload_cons, append_assoc, hrest, encodeOperation_eq, hkeyLen, hvalueLen, hop, hkey,
      hvalue, ← hk, ← hv, hfield 1 (by omega), hfield 5 (by omega), hk, hv]
    -- the parts stand one behind the other
    simp only [append_assoc]
    rw [hcut, hcut, opHeaderLen, hcut 5 4, hcut 1 4]
    exact take_append_drop 1 rest

/-- **CANONICAL**: a payload is accepted and decodes to some operations exactly if they are valid
    and it is what they are written as. -/
theorem payload_canonical (payload : Bytes) (count : Nat) (operations : List BatchOperation) :
    validatePayload payload count = .ok () ∧ decodeOperations count payload = operations ↔
      operations.length = count ∧ (∀ operation ∈ operations, operation.Valid) ∧
        payload = encodePayload operations := by
  constructor
  · rintro ⟨h, rfl⟩
    rw [validatePayload] at h
    split at h
    · cases h
    · rename_i left hall
      split_ifs at h with hnil
      obtain ⟨operations, rfl, hvalid, rfl⟩ := validateOperations_ok hall
      rw [decodeOperations_encode hvalid, hnil, append_nil]
      exact ⟨rfl, hvalid, rfl⟩
  · rintro ⟨rfl, hvalid, rfl⟩
    have hdecode := decodeOperations_encode hvalid []
    rw [append_nil] at hdecode
    exact ⟨validatePayload_encode hvalid, hdecode⟩

end Payload

/-! ## Records -/

section Record

/-- The fields fit. -/
structure Header.Fits (header : Header) : Prop where
  lsn : header.lsn < 256 ^ 8
  operationCount : header.operationCount < 256 ^ 4
  payloadLen : header.payloadLen < 256 ^ 4
  expectedChecksum : header.expectedChecksum < 256 ^ 4
  root : header.root < 256 ^ 8
  len : header.len < 256 ^ 8

@[simp] theorem Header.length_encode (header : Header) :
    header.encode.length = recordHeaderCrcAt := by
  simp [Header.encode, recordMagic, recordHeaderCrcAt]

/-- A header reads back, whatever follows it. -/
theorem Header.read_encode {header : Header} (h : header.Fits) (more : Bytes) :
    Header.read (header.encode ++ more) = header := by
  have hfield := fun (front rest : List (Nat × Nat)) {w n : Nat} (hn : n < 256 ^ w) =>
    fromBE_packed (recordMagic ++ [recordVersion]) more front rest hn
  obtain ⟨lsn, operationCount, payloadLen, expectedChecksum, root, len⟩ := header
  obtain ⟨hlsn, hcount, hpayload, hchecksum, hroot, hlen⟩ := h
  rw [Header.read]
  congr 1
  · exact hfield [] _ hlsn
  · exact hfield [(8, lsn)] _ hcount
  · exact hfield [(8, lsn), (4, operationCount)] _ hpayload
  · exact hfield [(8, lsn), (4, operationCount), (4, payloadLen)] _ hchecksum
  · exact hfield [(8, lsn), (4, operationCount), (4, payloadLen), (4, expectedChecksum)] _ hroot
  · exact hfield [(8, lsn), (4, operationCount), (4, payloadLen), (4, expectedChecksum),
      (8, root)] _ hlen

/-- A record that `encodeRecord` frames and a reader accepts. -/
structure Encodable (record : WalRecord) : Prop where
  lsn : record.lsn < 256 ^ 8
  root : record.root < 256 ^ 8
  len : record.len < 256 ^ 8
  some : record.operations ≠ []
  valid : ∀ operation ∈ record.operations, operation.Valid
  total : totalLen (encodePayload record.operations).length < 256 ^ 4

variable {record : WalRecord}

theorem encodeRecord_ok {bytes : Bytes} (h : encodeRecord record = .ok bytes) :
    bytes = frame record ∧ totalLen (encodePayload record.operations).length < 256 ^ 4 := by
  rw [encodeRecord] at h
  obtain ⟨-, h⟩ := guard_ok.mp h
  obtain ⟨_, -, h⟩ := bind_eq_ok.mp h
  obtain ⟨hfits, h⟩ := guard_ok.mp h
  exact ⟨(Except.ok.inj h).symm, not_le.mp hfits⟩

/-- Every operation takes at least its header. -/
theorem operations_le_payload (operations : List BatchOperation) :
    operations.length * opHeaderLen ≤ (encodePayload operations).length := by
  induction operations with
  | nil => simp
  | cons operation operations ih =>
    rw [encodePayload_cons, length_append, length_encodeOperation, length_cons, Nat.succ_mul]
    omega

theorem Encodable.fits (h : Encodable record) : (headerOf record).Fits := by
  have htotal := h.total
  have hcount := operations_le_payload record.operations
  rw [totalLen, recordHeaderLen, recordFooterLen] at htotal
  rw [opHeaderLen] at hcount
  refine ⟨h.lsn, ?_, ?_, BitVec.isLt _, h.root, h.len⟩
  · show record.operations.length < 256 ^ 4
    omega
  · show (encodePayload record.operations).length < 256 ^ 4
    omega

theorem Encodable.sized (h : Encodable record) : (headerOf record).operationCount ≠ 0 ∧
    ¬ (headerOf record).payloadLen < (headerOf record).operationCount * opHeaderLen :=
  ⟨fun hzero => h.some (length_eq_zero_iff.mp hzero),
    not_lt.mpr (operations_le_payload record.operations)⟩

@[simp] theorem length_recordHeader (record : WalRecord) :
    (recordHeader record).length = recordHeaderLen := by
  simp [recordHeader, recordHeaderCrcAt, recordHeaderLen]

@[simp] theorem length_recordFooter (total : Nat) :
    (recordFooter total).length = recordFooterLen := by
  simp [recordFooter, recordEnd, recordFooterLen]

@[simp] theorem length_frame (record : WalRecord) :
    (frame record).length = totalLen (encodePayload record.operations).length := by
  simp [frame, totalLen, add_assoc]

theorem recordHeader_magic (record : WalRecord) :
    (recordHeader record).take 4 = recordMagic := rfl

theorem recordHeader_version (record : WalRecord) :
    slice (recordHeader record) 4 1 = [recordVersion] := rfl

theorem recordHeader_known (record : WalRecord) : recordVersionKnown (recordHeader record) := by
  rw [recordVersionKnown, recordHeader_version]
  rfl

theorem recordHeader_crc (record : WalRecord) : recordHeaderCrcOk (recordHeader record) := by
  have htake : (recordHeader record).take recordHeaderCrcAt = (headerOf record).encode := by
    rw [recordHeader, ← (headerOf record).length_encode, take_left]
  have hfield : fromBE (slice (recordHeader record) recordHeaderCrcAt 4) =
      checksum (headerOf record).encode :=
    fromBE_slice (c := []) (by rw [recordHeader, append_nil]) (Header.length_encode _)
      (BitVec.isLt _)
  rw [recordHeaderCrcOk, htake, hfield]
  simp

theorem read_recordHeader (h : Encodable record) :
    Header.read (recordHeader record) = headerOf record :=
  Header.read_encode h.fits _

theorem recordFooter_total {total : Nat} (h : total < 256 ^ 4) :
    fromBE ((recordFooter total).take 4) = total := by
  rw [recordFooter, take_left' (length_toBE 4 total), fromBE_toBE h]

theorem recordFooter_end (total : Nat) : (recordFooter total).drop 4 = recordEnd := by
  rw [recordFooter, drop_left' (length_toBE 4 total)]

theorem take_frame (record : WalRecord) :
    (frame record).take recordHeaderLen = recordHeader record := by
  rw [frame, append_assoc, take_left' (length_recordHeader record)]

end Record

end Wal

end Vyrn
