import Mathlib.Data.List.Sort
import Vyrn.Basic
import Vyrn.Lib.Catalog

/-!
# The value log — values too large for a page, framed and appended

A value over the inline limit is appended as one framed record: a 24-byte header (magic, version,
revision, length, checksum, padding), the value, and an 8-byte footer (record length, end mark). A
`ValueRef` names a record by offset, length and revision, and a read checks all of it again. The
cache of validated values only holds what a read of the file returned and is left out.

Main results: `read_append`, `recoverTail_cut`.
-/

namespace Vyrn

open ByteString List

/-- Where a value sits in the value log. -/
structure ValueRef where
  offset : Nat
  len : Nat
  revision : Nat
  deriving DecidableEq, Repr

namespace ValueLog

variable {log torn value a : Bytes} {revision n : Nat} {reference : ValueRef}
  {records : List (Nat × Bytes)}

def magic : Bytes := [86, 86, 65, 76]

def endMark : Bytes := [86, 69, 78, 68]

def version : Byte := 1

def headerLen : Nat := 24

def footerLen : Nat := 8

/-- The bytes a record of `len` value bytes takes. -/
def totalLen (len : Nat) : Nat := headerLen + len + footerLen

def valueChecksum (revision : Nat) (value : Bytes) : Nat :=
  (crc32 ([version] ++ toBE 8 revision ++ toBE 4 value.length ++ value)).toNat

def header (revision : Nat) (value : Bytes) : Bytes :=
  magic ++ [version] ++ toBE 8 revision ++ toBE 4 value.length
    ++ toBE 4 (valueChecksum revision value) ++ [0, 0, 0]

def footer (value : Bytes) : Bytes :=
  toBE 4 (totalLen value.length) ++ endMark

/-- The framed record of a value. -/
def record (revision : Nat) (value : Bytes) : Bytes :=
  header revision value ++ value ++ footer value

/-- Appends `value` as one record; returns where it landed and the grown log. -/
def append (log : Bytes) (value : Bytes) (revision : Nat) : Except Error (ValueRef × Bytes) :=
  if 2 ^ 32 ≤ value.length then .error .valueTooLarge
  else if 2 ^ 32 ≤ totalLen value.length then .error .valueTooLarge
  else .ok (⟨log.length, value.length, revision⟩, log ++ record revision value)

/-- Checks a record's header, checksum and footer against its value. -/
def validateFraming (header footer value : Bytes) (total offset : Nat) : Except Error Unit :=
  if header.length ≠ headerLen ∨ footer.length ≠ footerLen ∨ header.take 4 ≠ magic
      ∨ slice header 4 1 ≠ [version] then
    .error (.corruptValue offset "invalid value record header")
  else if maxValueSize < fromBE (slice header 13 4) ∨ fromBE (slice header 13 4) ≠ value.length
      ∨ total ≠ totalLen (fromBE (slice header 13 4)) then
    .error (.corruptValue offset "invalid value record length")
  else if fromBE (slice header 17 4) ≠ valueChecksum (fromBE (slice header 5 8)) value
      ∨ fromBE (slice footer 0 4) ≠ total ∨ footer.drop 4 ≠ endMark then
    .error (.corruptValue offset "value checksum or footer mismatch")
  else .ok ()

def validateRecord (record : Bytes) (offset : Nat) : Except Error Unit :=
  if record.length < headerLen + footerLen then
    .error (.corruptValue offset "invalid value record header")
  else
    validateFraming (record.take headerLen) (record.drop (record.length - footerLen))
      (slice record headerLen (record.length - headerLen - footerLen)) record.length offset

/-- Reads the value a reference names. Small and large values reach memory in different
    pieces, but the same bytes are checked either way. -/
def read (log : Bytes) (reference : ValueRef) : Except Error Bytes :=
  if log.length < reference.offset + totalLen reference.len then
    .error (.corruptValue reference.offset "value reference is out of bounds")
  else
    let header := slice log reference.offset headerLen
    let value := slice log (reference.offset + headerLen) reference.len
    let footer := slice log (reference.offset + headerLen + reference.len) footerLen
    match validateFraming header footer value (totalLen reference.len) reference.offset with
    | .error error => .error error
    | .ok () =>
      if fromBE (slice header 5 8) ≠ reference.revision
          ∨ fromBE (slice header 13 4) ≠ reference.len then
        .error (.corruptValue reference.offset "value reference metadata mismatch")
      else .ok value

/-! ## Reading many values -/

def maxCoalescedRead : Nat := 1024 * 1024

/-- Groups references in file order into runs of records that follow each other exactly. Each
    reference carries its place in the answer. -/
def coalesce (run : List (ValueRef × Nat)) (bytes runEnd : Nat) :
    List (ValueRef × Nat) → List (List (ValueRef × Nat))
  | [] => if run = [] then [] else [run]
  | (reference, slot) :: rest =>
    let total := totalLen reference.len
    if run ≠ [] ∧ reference.offset = runEnd ∧ bytes + total ≤ maxCoalescedRead then
      coalesce (run ++ [(reference, slot)]) (bytes + total) (reference.offset + total) rest
    else
      (if run = [] then [] else [run]) ++
        coalesce [(reference, slot)] total (reference.offset + total) rest

/-- Cuts the records of a run out of the bytes read for it, checking each. -/
def readRecords (buffer : Bytes) (start : Nat) :
    Nat → List (ValueRef × Nat) → Except Error (List (Nat × Bytes))
  | _, [] => .ok []
  | cursor, (reference, slot) :: rest => do
    let record := slice buffer cursor (totalLen reference.len)
    validateRecord record (start + cursor)
    if fromBE (slice record 5 8) ≠ reference.revision
        ∨ fromBE (slice record 13 4) ≠ reference.len then
      throw (.corruptValue (start + cursor) "value reference metadata mismatch")
    let others ← readRecords buffer start (cursor + totalLen reference.len) rest
    return (slot, slice record headerLen reference.len) :: others

/-- The bytes a run takes. -/
def runBytes (run : List (ValueRef × Nat)) : Nat :=
  (run.map (fun r => totalLen r.1.len)).sum

/-- One read for a run, and a plain read for a run of one. -/
def readRun (log : Bytes) : List (ValueRef × Nat) → Except Error (List (Nat × Bytes))
  | [] => .ok []
  | [(reference, slot)] => do
    let value ← read log reference
    return [(slot, value)]
  | (first, slot) :: rest =>
    let runLen := runBytes ((first, slot) :: rest)
    if log.length < first.offset + runLen then
      .error (.corruptValue first.offset "value reference is out of bounds")
    else readRecords (slice log first.offset runLen) first.offset 0 ((first, slot) :: rest)

def readRuns (log : Bytes) : List (List (ValueRef × Nat)) → Except Error (List (Nat × Bytes))
  | [] => .ok []
  | run :: runs => do
    let values ← readRun log run
    let others ← readRuns log runs
    return values ++ others

/-- Reads many values, adjacent records with one read; answers in argument order. -/
def readMany (log : Bytes) (references : List ValueRef) : Except Error (List Bytes) :=
  if references.length < 2 then references.mapM (read log)
  else do
    let order := references.zipIdx.insertionSort (fun a b => a.1.offset ≤ b.1.offset)
    let results ← readRuns log (coalesce [] 0 0 order)
    return references.zipIdx.map (fun r => (lookup r.2 results).getD [])

/-! ## Opening -/

/-- Walks the records from `offset` on and drops a final record that is not whole. Every
    turn passes a record, so the length of the log is fuel enough. -/
def recoverTailFrom (log : Bytes) : Nat → Nat → Except Error Bytes
  | 0, _ => .ok log
  | fuel + 1, offset =>
    if log.length ≤ offset then .ok log
    else if log.length - offset < headerLen then .ok (log.take offset)
    else
      let header := slice log offset headerLen
      if header.take 4 ≠ magic ∨ slice header 4 1 ≠ [version] then
        .error (.corruptValue offset "invalid value record header")
      else if maxValueSize < fromBE (slice header 13 4) then
        .error (.corruptValue offset "invalid value length")
      else
        let total := totalLen (fromBE (slice header 13 4))
        if log.length - offset < total then .ok (log.take offset)
        else
          match validateRecord (slice log offset total) offset with
          | .error error => .error error
          | .ok () => recoverTailFrom log fuel (offset + total)

/-- What `open` makes of a log file: the file with its torn tail dropped. -/
def recoverTail (log : Bytes) : Except Error Bytes :=
  recoverTailFrom log (log.length + 1) 0

/-! ## A record's own fields -/

/-- What the log accepts: a revision of 64 bits and a value of admissible length. -/
def Admissible (revision : Nat) (value : Bytes) : Prop :=
  revision < 256 ^ 8 ∧ value.length ≤ maxValueSize

theorem totalLen_lt (h : Admissible revision value) : totalLen value.length < 256 ^ 4 := by
  have hv : value.length ≤ 16 * 1024 * 1024 := h.2
  show 24 + value.length + 8 < 256 ^ 4
  omega

@[simp] theorem length_header (revision : Nat) (value : Bytes) :
    (header revision value).length = headerLen := by
  simp [header, magic, headerLen]

@[simp] theorem length_footer (value : Bytes) : (footer value).length = footerLen := by
  simp [footer, endMark, footerLen]

@[simp] theorem length_record (revision : Nat) (value : Bytes) :
    (record revision value).length = totalLen value.length := by
  simp [record, totalLen, add_assoc]

theorem header_magic (revision : Nat) (value : Bytes) :
    (header revision value).take 4 = magic := rfl

theorem header_version (revision : Nat) (value : Bytes) :
    slice (header revision value) 4 1 = [version] := rfl

section

variable (h : Admissible revision value)
include h

theorem header_revision : fromBE (slice (header revision value) 5 8) = revision :=
  fromBE_slice (a := magic ++ [version])
    (c := toBE 4 value.length ++ toBE 4 (valueChecksum revision value) ++ [0, 0, 0])
    (by simp [header]) rfl h.1

theorem header_len : fromBE (slice (header revision value) 13 4) = value.length :=
  fromBE_slice (a := magic ++ [version] ++ toBE 8 revision)
    (c := toBE 4 (valueChecksum revision value) ++ [0, 0, 0]) (by simp [header])
    (by simp [magic]) (lt_of_le_of_lt (by rw [totalLen]; omega) (totalLen_lt h))

omit h in
theorem header_checksum (revision : Nat) (value : Bytes) :
    fromBE (slice (header revision value) 17 4) = valueChecksum revision value :=
  fromBE_slice (a := magic ++ [version] ++ toBE 8 revision ++ toBE 4 value.length)
    (c := [0, 0, 0]) (by simp [header]) (by simp [magic]) (BitVec.isLt _)

/-- **FRAMING**: what `append` frames, the reader accepts. -/
theorem validateFraming_record (offset : Nat) :
    validateFraming (header revision value) (footer value) value (totalLen value.length) offset
      = .ok () := by
  have hfoot : fromBE (slice (footer value) 0 4) = totalLen value.length :=
    fromBE_slice (a := []) (c := endMark) (by simp [footer]) rfl (totalLen_lt h)
  have hend : (footer value).drop 4 = endMark := by
    rw [footer, drop_append_of_le_length (by simp), drop_of_length_le (by simp)]
    rfl
  rw [validateFraming, if_neg, if_neg, if_neg]
  · rw [header_checksum, header_revision h, hfoot, hend]; simp
  · rw [header_len h]; simp [h.2]
  · rw [length_header, length_footer, header_magic, header_version]; simp

/-! ## Reading back -/

/-- A record anywhere in the log reads back through its reference. -/
theorem read_record {c : Bytes} (hlog : log = a ++ record revision value ++ c) :
    read log ⟨a.length, value.length, revision⟩ = .ok value := by
  have hlen : a.length + totalLen value.length ≤ log.length := by
    rw [hlog, length_append, length_append, length_record]; omega
  have hheader : slice log a.length headerLen = header revision value :=
    slice_middle (c := value ++ footer value ++ c) (by rw [hlog, record]; simp) rfl
      (length_header _ _)
  have hvalue : slice log (a.length + headerLen) value.length = value :=
    slice_middle (a := a ++ header revision value) (c := footer value ++ c)
      (by rw [hlog, record]; simp) (by simp) rfl
  have hfooter : slice log (a.length + headerLen + value.length) footerLen = footer value :=
    slice_middle (a := a ++ header revision value ++ value) (c := c)
      (by rw [hlog, record]; simp) (by simp [add_assoc]) (length_footer _)
  rw [read, if_neg (not_lt.mpr hlen)]
  simp only [hheader, hvalue, hfooter, validateFraming_record h, header_revision h, header_len h]
  simp

end

/-- An accepted read lies inside the log. -/
theorem bound_of_read (h : read log reference = .ok value) :
    reference.offset + totalLen reference.len ≤ log.length := by
  exact not_lt.mp (guard_ok.mp h).1

/-- **MONOTONE**: a log that grows keeps every value it held. -/
theorem read_mono (more : Bytes) (h : read log reference = .ok value) :
    read (log ++ more) reference = .ok value := by
  have hb := bound_of_read h
  have htotal : totalLen reference.len = headerLen + reference.len + footerLen := rfl
  rw [← h, read, read, if_neg (not_lt.mpr hb), if_neg (not_lt.mpr (hb.trans (by simp))),
    slice_append more (by omega), slice_append more (by omega), slice_append more (by omega)]

/-- **READ BACK**: an appended value is stored and reads back. -/
theorem read_append (log : Bytes) (h : Admissible revision value) :
    append log value revision
        = .ok (⟨log.length, value.length, revision⟩, log ++ record revision value) ∧
      read (log ++ record revision value) ⟨log.length, value.length, revision⟩ = .ok value := by
  have hlt : totalLen value.length < 2 ^ 32 := totalLen_lt h
  have hle : value.length ≤ totalLen value.length := by rw [totalLen]; omega
  refine ⟨?_, read_record (c := []) h (by rw [append_nil])⟩
  rw [append, if_neg (not_le.mpr (lt_of_le_of_lt hle hlt)), if_neg (not_le.mpr hlt)]

/-! ## Batched reads -/

/-- A record cut out of the log is checked like one read in place. -/
theorem validateRecord_slice {o : Nat} (h : o + totalLen n ≤ log.length) (offset : Nat) :
    validateRecord (slice log o (totalLen n)) offset
      = validateFraming (slice log o headerLen) (slice log (o + headerLen + n) footerLen)
          (slice log (o + headerLen) n) (totalLen n) offset := by
  have htotal : totalLen n = headerLen + n + footerLen := rfl
  have hlen : (slice log o (totalLen n)).length = totalLen n := by
    rw [length_slice, min_eq_left (by omega)]
  have hhead : (slice log o (totalLen n)).take headerLen = slice log o headerLen := by
    rw [slice, slice, take_take, min_eq_left (by omega)]
  have hfoot : (slice log o (totalLen n)).drop (totalLen n - footerLen)
      = slice log (o + headerLen + n) footerLen := by
    simp only [slice]
    rw [drop_take, drop_drop, show totalLen n - (totalLen n - footerLen) = footerLen by
      omega, show o + (totalLen n - footerLen) = o + headerLen + n by omega]
  rw [validateRecord, hlen, if_neg (by omega), hhead, hfoot, slice_slice log (by omega),
    show totalLen n - headerLen - footerLen = n by omega]

/-- What an accepted read checked. -/
theorem of_read (h : read log reference = .ok value) :
    slice log (reference.offset + headerLen) reference.len = value ∧
      (∀ offset, validateRecord (slice log reference.offset (totalLen reference.len)) offset
        = .ok ()) ∧
      fromBE (slice (slice log reference.offset headerLen) 5 8) = reference.revision ∧
      fromBE (slice (slice log reference.offset headerLen) 13 4) = reference.len := by
  have hb := bound_of_read h
  rw [read, if_neg (not_lt.mpr hb)] at h
  dsimp only at h
  cases hv : validateFraming (slice log reference.offset headerLen)
      (slice log (reference.offset + headerLen + reference.len) footerLen)
      (slice log (reference.offset + headerLen) reference.len)
      (totalLen reference.len) reference.offset with
  | error => rw [hv] at h; exact absurd h (by simp)
  | ok =>
    rw [hv] at h
    obtain ⟨hmeta, h⟩ := guard_ok.mp h
    obtain ⟨hrev, hlen⟩ := not_or.mp hmeta
    refine ⟨Except.ok.inj h, fun offset => ?_, not_not.mp hrev, not_not.mp hlen⟩
    rw [validateRecord_slice hb]
    -- the offset only names the error, and there is none
    rw [validateFraming] at hv ⊢
    split_ifs at hv ⊢ with h1 h2 h3
    rfl

/-- The references of a run follow each other in the file. -/
def Contiguous : Nat → List (ValueRef × Nat) → Prop
  | _, [] => True
  | start, (reference, _) :: rest =>
    reference.offset = start ∧ Contiguous (start + totalLen reference.len) rest

theorem contiguous_concat {slot : Nat} {run : List (ValueRef × Nat)} {start : Nat}
    (hc : Contiguous start run) (h : reference.offset = start + runBytes run) :
    Contiguous start (run ++ [(reference, slot)]) := by
  induction run generalizing start with
  | nil => exact ⟨h, trivial⟩
  | cons r run ih =>
    obtain ⟨hr, hrest⟩ := hc
    refine ⟨hr, ih hrest ?_⟩
    rw [h, runBytes, map_cons, sum_cons, ← runBytes]
    omega

/-- Coalescing loses nothing and groups only what is contiguous. -/
theorem coalesce_spec {rest : List (ValueRef × Nat)} (run : List (ValueRef × Nat))
    (bytes runEnd : Nat)
    (hrun : ∀ r ∈ run.head?, Contiguous r.1.offset run ∧ runEnd = r.1.offset + runBytes run) :
    (coalesce run bytes runEnd rest).flatten = run ++ rest ∧
      ∀ group ∈ coalesce run bytes runEnd rest, ∃ r ∈ group.head?, Contiguous r.1.offset group := by
  induction rest generalizing run bytes runEnd with
  | nil =>
    rw [coalesce]
    cases run with
    | nil => exact ⟨rfl, by simp⟩
    | cons r run =>
      refine ⟨by simp, ?_⟩
      rw [if_neg (by simp)]
      exact forall_mem_singleton.mpr ⟨r, rfl, (hrun r rfl).1⟩
  | cons item rest ih =>
    obtain ⟨reference, slot⟩ := item
    rw [coalesce]
    by_cases hjoin : run ≠ [] ∧ reference.offset = runEnd ∧
        bytes + totalLen reference.len ≤ maxCoalescedRead
    · rw [if_pos hjoin]
      obtain ⟨hne, hend, _⟩ := hjoin
      obtain ⟨r, run, rfl⟩ := exists_cons_of_ne_nil hne
      obtain ⟨hcont, hruns⟩ := hrun r rfl
      obtain ⟨hflat, hgroups⟩ := ih ((r :: run) ++ [(reference, slot)])
        (bytes + totalLen reference.len) (reference.offset + totalLen reference.len) (by
          intro r' hr'
          obtain rfl : r = r' := by simpa using hr'
          refine ⟨contiguous_concat hcont (hend.trans hruns), ?_⟩
          rw [hend, hruns, runBytes, runBytes, map_append, sum_append]
          simp [add_assoc])
      exact ⟨by rw [hflat]; simp, hgroups⟩
    · rw [if_neg hjoin]
      obtain ⟨hflat, hgroups⟩ := ih [(reference, slot)] (totalLen reference.len)
        (reference.offset + totalLen reference.len) (by
          intro r' hr'
          obtain rfl : (reference, slot) = r' := by simpa using hr'
          exact ⟨⟨rfl, trivial⟩, by simp [runBytes]⟩)
      rw [flatten_append, hflat]
      cases run with
      | nil => exact ⟨by simp, by simpa using hgroups⟩
      | cons r run =>
        refine ⟨by simp, ?_⟩
        rw [if_neg (by simp)]
        exact forall_mem_cons.mpr ⟨⟨r, rfl, (hrun r rfl).1⟩, hgroups⟩

/-- The value a reference reads, for references that read one. -/
def valueOf (log : Bytes) (reference : ValueRef) : Bytes :=
  match read log reference with
  | .ok value => value
  | .error _ => []

/-- A reference that reads. -/
def Readable (log : Bytes) (reference : ValueRef) : Prop :=
  read log reference = .ok (valueOf log reference)

theorem readable_of_read (h : read log reference = .ok value) : Readable log reference := by
  rw [Readable, valueOf, h]

/-- A readable contiguous run lies inside the log. -/
theorem runBytes_le {run : List (ValueRef × Nat)} {start : Nat} (hne : run ≠ [])
    (hc : Contiguous start run) (hread : ∀ r ∈ run, Readable log r.1) :
    start + runBytes run ≤ log.length := by
  induction run generalizing start with
  | nil => exact absurd rfl hne
  | cons r run ih =>
    obtain ⟨hr, hrest⟩ := hc
    have hb := bound_of_read (hread r mem_cons_self)
    rw [runBytes, map_cons, sum_cons, ← runBytes]
    by_cases hnil : run = []
    · subst hnil
      rw [← hr]
      exact hb
    · have := ih hnil hrest (fun r' hr' => hread r' (mem_cons_of_mem _ hr'))
      omega

/-- A contiguous run is cut into its records. -/
theorem readRecords_ok {start len : Nat} {run : List (ValueRef × Nat)} (cursor : Nat)
    (hc : Contiguous (start + cursor) run) (hfit : cursor + runBytes run ≤ len)
    (hread : ∀ r ∈ run, Readable log r.1) :
    readRecords (slice log start len) start cursor run
      = .ok (run.map (fun r => (r.2, valueOf log r.1))) := by
  induction run generalizing cursor with
  | nil => rfl
  | cons item run ih =>
    obtain ⟨reference, slot⟩ := item
    obtain ⟨hoff, hrest⟩ := hc
    rw [runBytes, map_cons, sum_cons, ← runBytes] at hfit
    dsimp only at hfit
    obtain ⟨hvalue, hvalid, hrev, hlen'⟩ := of_read (hread _ mem_cons_self)
    dsimp only at hvalue hvalid hrev hlen'
    have htotal : totalLen reference.len = headerLen + reference.len + footerLen := rfl
    have hrecord : slice (slice log start len) cursor (totalLen reference.len)
        = slice log reference.offset (totalLen reference.len) := by
      rw [slice_slice log (by omega), hoff]
    have hfield : ∀ o n, o + n ≤ headerLen →
        slice (slice log reference.offset (totalLen reference.len)) o n
          = slice (slice log reference.offset headerLen) o n := by
      intro o n hon
      rw [slice_slice log (by omega), slice_slice log hon]
    have hbody : slice (slice log reference.offset (totalLen reference.len)) headerLen
        reference.len = valueOf log reference := by
      rw [slice_slice log (by omega), hvalue]
    have hothers := ih (cursor + totalLen reference.len)
      (by rw [← add_assoc]; exact hrest) (by omega)
      (fun r' hr' => hread r' (mem_cons_of_mem _ hr'))
    rw [readRecords, hrecord, hvalid, ok_bind,
      if_neg (by
        rw [hfield 5 8 (by decide), hfield 13 4 (by decide), hrev, hlen']
        simp)]
    simp only [pure_eq_ok]
    rw [hothers, hbody]
    rfl

theorem readRun_ok {run : List (ValueRef × Nat)}
    (hcont : ∃ r ∈ run.head?, Contiguous r.1.offset run) (hread : ∀ r ∈ run, Readable log r.1) :
    readRun log run = .ok (run.map (fun r => (r.2, valueOf log r.1))) := by
  obtain ⟨r, hr, hcont⟩ := hcont
  cases run with
  | nil => exact absurd hr (by simp)
  | cons first rest =>
    obtain rfl : first = r := by simpa using hr
    obtain ⟨reference, slot⟩ := first
    cases rest with
    | nil =>
      have h : read log reference = .ok (valueOf log reference) :=
        hread _ mem_cons_self
      rw [readRun, h]
      rfl
    | cons second rest =>
      have hb := runBytes_le (by simp) hcont hread
      rw [readRun]
      · dsimp only at hb ⊢
        rw [if_neg (not_lt.mpr hb)]
        exact readRecords_ok 0 hcont (by omega) hread
      · simp

theorem readRuns_ok :
    ∀ {runs : List (List (ValueRef × Nat))},
      (∀ run ∈ runs, ∃ r ∈ run.head?, Contiguous r.1.offset run) →
      (∀ r ∈ runs.flatten, Readable log r.1) →
      readRuns log runs = .ok (runs.flatten.map (fun r => (r.2, valueOf log r.1))) := by
  intro runs
  induction runs with
  | nil => intro _ _; rfl
  | cons run runs ih =>
    intro hcont hread
    rw [flatten_cons] at hread
    rw [readRuns, readRun_ok (hcont run mem_cons_self)
      (fun r hr => hread r (mem_append_left _ hr)), ok_bind,
      ih (fun run' hr => hcont run' (mem_cons_of_mem _ hr))
        (fun r hr => hread r (mem_append_right _ hr)), ok_bind, flatten_cons,
      map_append]
    rfl

/-- **BATCHED READ**: references that read one by one read together, each in its place. -/
theorem readMany_ok {references : List ValueRef} (hread : ∀ r ∈ references, Readable log r) :
    readMany log references = .ok (references.map (valueOf log)) := by
  rw [readMany]
  split_ifs with hfew
  · exact Catalog.mapM_eq_ok.mpr (forall₂_map_right_iff.mpr (forall₂_same.mpr hread))
  · dsimp only
    generalize hsorted : references.zipIdx.insertionSort (fun a b => a.1.offset ≤ b.1.offset)
      = order
    have hperm : order.Perm references.zipIdx := hsorted ▸ perm_insertionSort _ _
    obtain ⟨hflat, hgroups⟩ := @coalesce_spec order [] 0 0 (by simp)
    rw [nil_append] at hflat
    have hall : ∀ r ∈ (coalesce [] 0 0 order).flatten, Readable log r.1 := by
      intro r hr
      rw [hflat] at hr
      exact hread r.1 (fst_mem_of_mem_zipIdx (hperm.mem_iff.mp hr))
    rw [readRuns_ok hgroups hall, ok_bind, hflat]
    refine congrArg Except.ok ?_
    -- each slot is filled once, by its own reference
    have hslot : ∀ r ∈ references.zipIdx,
        (lookup r.2 (order.map (fun r => (r.2, valueOf log r.1)))).getD []
          = valueOf log r.1 := by
      intro r hr
      have hmem : (r.2, valueOf log r.1) ∈ order.map (fun r => (r.2, valueOf log r.1)) :=
        mem_map.mpr ⟨r, hperm.mem_iff.mpr hr, rfl⟩
      rw [SortedMap.lookup_of_unique hmem]
      · rfl
      · intro v hv
        obtain ⟨r', hr', heq⟩ := mem_map.mp hv
        obtain ⟨hslot, hval⟩ := Prod.mk.inj heq
        have h1 := mem_zipIdx_iff_getElem?.mp (hperm.mem_iff.mp hr')
        have h2 := mem_zipIdx_iff_getElem?.mp hr
        rw [hslot, h2] at h1
        rw [← hval, Option.some.inj h1]
    rw [map_congr_left hslot]
    conv_rhs => rw [← zipIdx_map_fst 0 references]
    rw [map_map]
    rfl

/-! ## A cut log -/

/-- The file a list of appends leaves: revision and value of each record, in order. -/
def logOf (records : List (Nat × Bytes)) : Bytes :=
  (records.map (fun r => record r.1 r.2)).flatten

/-- Less than one record of the log. -/
def Torn (torn : Bytes) : Prop :=
  torn = [] ∨ ∃ revision value, Admissible revision value ∧ torn <+: record revision value ∧
    torn.length < totalLen value.length

/-- The records that lie whole within the first `n` bytes. -/
def wholeRecords : Nat → List (Nat × Bytes) → List (Nat × Bytes)
  | _, [] => []
  | n, r :: records =>
    if totalLen r.2.length ≤ n then r :: wholeRecords (n - totalLen r.2.length) records else []

theorem logOf_cons (r : Nat × Bytes) (records : List (Nat × Bytes)) :
    logOf (r :: records) = record r.1 r.2 ++ logOf records := rfl

theorem logOf_append (a b : List (Nat × Bytes)) : logOf (a ++ b) = logOf a ++ logOf b := by
  rw [logOf, map_append, flatten_append]
  rfl

theorem validateRecord_record (h : Admissible revision value) (offset : Nat) :
    validateRecord (record revision value) offset = .ok () := by
  obtain ⟨_, hvalid, _⟩ := of_read (read_record (a := []) (c := []) h
    (append_nil (record revision value)).symm)
  have hslice : slice (record revision value) 0 (totalLen value.length)
      = record revision value := by
    rw [slice, drop_zero, take_of_length_le (by rw [length_record])]
  have := hvalid offset
  dsimp only [length_nil] at this
  rwa [hslice] at this

/-- The header of a record that starts at `offset`, whole or not, reads as written. -/
theorem slice_header (a : Bytes) (more : Bytes) (htorn : torn <+: record revision value)
    (hlen : headerLen ≤ torn.length) :
    slice (a ++ torn ++ more) a.length headerLen = header revision value := by
  obtain ⟨rest, hrest⟩ := htorn
  have hhead : torn.take headerLen = header revision value := by
    have htake : (torn ++ rest).take headerLen = torn.take headerLen :=
      take_append_of_le_length hlen
    rw [← htake, hrest, record, append_assoc, ← length_header revision value, take_left]
  refine slice_middle (a := a) (c := torn.drop headerLen ++ more) ?_ rfl (length_header _ _)
  rw [← hhead]
  conv_lhs => rw [← take_append_drop headerLen torn]
  simp only [append_assoc]

theorem recoverTailFrom_torn (htorn : Torn torn) (fuel : Nat) :
    recoverTailFrom (a ++ torn) (fuel + 1) a.length = .ok a := by
  have hlen : (a ++ torn).length - a.length = torn.length := by
    rw [length_append]
    omega
  rw [recoverTailFrom]
  by_cases hempty : torn = []
  · rw [hempty, append_nil, if_pos le_rfl]
  · obtain ⟨revision, value, hadm, hpre, hshort⟩ := htorn.resolve_left hempty
    have hpos : 0 < torn.length := length_pos_iff.mpr hempty
    rw [if_neg (by rw [length_append]; omega), hlen, take_left]
    by_cases hhead : torn.length < headerLen
    · rw [if_pos hhead]
    · have hslice := slice_header a [] hpre (not_lt.mp hhead)
      rw [append_nil] at hslice
      rw [if_neg hhead, hslice]
      dsimp only
      rw [header_magic, header_version, header_len hadm, if_neg (by simp),
        if_neg (not_lt.mpr hadm.2), if_pos hshort]

/-- The walk passes every whole record. -/
theorem recoverTailFrom_pass (rest : Bytes) (fuel : Nat) (a : Bytes)
    (hadm : ∀ r ∈ records, Admissible r.1 r.2) :
    recoverTailFrom (a ++ logOf records ++ rest) (fuel + records.length) a.length
      = recoverTailFrom (a ++ logOf records ++ rest) fuel (a ++ logOf records).length := by
  induction records generalizing a with
  | nil =>
    rw [show logOf [] = [] from rfl, append_nil]
    rfl
  | cons r records ih =>
    rw [forall_mem_cons] at hadm
    have hr := hadm.1
    have hlog : a ++ logOf (r :: records) ++ rest
        = a ++ record r.1 r.2 ++ (logOf records ++ rest) := by
      rw [logOf_cons]
      simp
    have hhead := slice_header a (logOf records ++ rest)
      (prefix_refl (record r.1 r.2)) (by rw [length_record, totalLen]; omega)
    have hlen : (a ++ record r.1 r.2 ++ (logOf records ++ rest)).length - a.length
        = totalLen r.2.length + (logOf records ++ rest).length := by
      rw [length_append, length_append, length_record]
      omega
    have hpos : headerLen < totalLen r.2.length := by
      rw [totalLen, headerLen, footerLen]
      omega
    have hrec : slice (a ++ record r.1 r.2 ++ (logOf records ++ rest)) a.length
        (totalLen r.2.length) = record r.1 r.2 := slice_middle rfl rfl (length_record _ _)
    have hnext := ih (a ++ record r.1 r.2) hadm.2
    rw [hlog, length_cons, ← add_assoc, recoverTailFrom, if_neg (by omega), hlen,
      if_neg (by omega), hhead]
    dsimp only
    rw [header_magic, header_version, header_len hr, if_neg (by simp),
      if_neg (not_lt.mpr hr.2), if_neg (by omega), hrec, validateRecord_record hr, logOf_cons]
    rw [← length_record r.1 r.2, ← length_append, ← append_assoc, hnext, append_assoc a]

/-- The walk passes every whole record and stops at the torn one. -/
theorem recoverTailFrom_records {fuel : Nat} (htorn : Torn torn)
    (hadm : ∀ r ∈ records, Admissible r.1 r.2) (hf : records.length < fuel) :
    recoverTailFrom (logOf records ++ torn) fuel 0 = .ok (logOf records) := by
  obtain ⟨fuel, rfl⟩ : ∃ f, fuel = f + 1 + records.length := ⟨fuel - records.length - 1, by omega⟩
  exact (recoverTailFrom_pass torn (fuel + 1) [] hadm).trans (recoverTailFrom_torn htorn fuel)

/-- The walk drops nothing of what it has passed. -/
theorem recoverTailFrom_keeps {kept : Bytes} {fuel offset : Nat}
    (h : recoverTailFrom log fuel offset = .ok kept) : log.take offset <+: kept := by
  induction fuel generalizing offset with
  | zero => exact Except.ok.inj h ▸ List.take_prefix offset log
  | succ fuel ih =>
    rw [recoverTailFrom] at h
    dsimp only at h
    split_ifs at h
    · exact Except.ok.inj h ▸ List.take_prefix offset log
    · exact Except.ok.inj h ▸ prefix_refl _
    · exact Except.ok.inj h ▸ prefix_refl _
    · split at h
      · cases h
      · exact (take_prefix_take_left (Nat.le_add_right _ _)).trans (ih h)

theorem length_le_logOf (records : List (Nat × Bytes)) :
    records.length ≤ (logOf records).length := by
  induction records with
  | nil => exact Nat.le_refl 0
  | cons r records ih =>
    rw [logOf_cons, length_append, length_record, totalLen, headerLen, length_cons]
    omega

/-- A cut log is the records that survived whole and a torn rest. -/
theorem take_logOf (n : Nat) (hadm : ∀ r ∈ records, Admissible r.1 r.2) :
    ∃ torn, Torn torn ∧ (logOf records).take n = logOf (wholeRecords n records) ++ torn := by
  induction records generalizing n with
  | nil => exact ⟨[], .inl rfl, by simp [logOf, wholeRecords]⟩
  | cons r records ih =>
    rw [forall_mem_cons] at hadm
    rw [wholeRecords, logOf_cons]
    split_ifs with hfit
    · obtain ⟨torn, htorn, heq⟩ := ih (n - totalLen r.2.length) hadm.2
      refine ⟨torn, htorn, ?_⟩
      rw [take_append, length_record, heq, logOf_cons,
        take_of_length_le (by rw [length_record]; exact hfit), append_assoc]
    · refine ⟨(record r.1 r.2).take n, .inr ⟨r.1, r.2, hadm.1, List.take_prefix _ _, ?_⟩, ?_⟩
      · rw [length_take, length_record]
        omega
      · rw [take_append_of_le_length (by rw [length_record]; omega)]
        rfl

theorem wholeRecords_sublist (n : Nat) (records : List (Nat × Bytes)) :
    wholeRecords n records <+: records := by
  induction records generalizing n with
  | nil => exact prefix_refl []
  | cons r records ih =>
    rw [wholeRecords]
    split_ifs with hfit
    · obtain ⟨rest, hrest⟩ := ih (n - totalLen r.2.length)
      exact ⟨rest, by rw [cons_append, hrest]⟩
    · exact nil_prefix

/-- **TAIL REPAIR**: opening a log that was cut anywhere keeps exactly the records that
    survived whole. -/
theorem recoverTail_cut (n : Nat) (hadm : ∀ r ∈ records, Admissible r.1 r.2) :
    recoverTail ((logOf records).take n) = .ok (logOf (wholeRecords n records)) := by
  obtain ⟨torn, htorn, heq⟩ := take_logOf n hadm
  have hkept : ∀ r ∈ wholeRecords n records, Admissible r.1 r.2 := fun r hr =>
    hadm r ((wholeRecords_sublist n records).subset hr)
  have hfuel := length_le_logOf (wholeRecords n records)
  rw [recoverTail, heq]
  refine recoverTailFrom_records htorn hkept ?_
  rw [length_append]
  omega

/-- A log of whole records, as every append leaves it. -/
def Whole (log : Bytes) : Prop :=
  ∃ records : List (Nat × Bytes), (∀ r ∈ records, Admissible r.1 r.2) ∧ log = logOf records

theorem whole_nil : Whole [] := ⟨[], forall_mem_nil _, rfl⟩

theorem Whole.append (h : Whole log) (hadm : Admissible revision value) :
    Whole (log ++ record revision value) := by
  obtain ⟨records, hrecords, rfl⟩ := h
  refine ⟨records ++ [(revision, value)], ?_, ?_⟩
  · exact forall_mem_append.mpr ⟨hrecords, forall_mem_singleton.mpr hadm⟩
  · rw [logOf_append, logOf_cons]
    simp [logOf]

/-- **CUT**: opening a log that was cut behind its whole first part keeps that part. -/
theorem Whole.cut {front : Bytes} (h : Whole log) (hfront : Whole front) (hpre : front <+: log)
    (hn : front.length ≤ n) :
    ∃ kept, ValueLog.recoverTail (log.take n) = .ok kept ∧ Whole kept ∧ front <+: kept ∧
      kept <+: log := by
  obtain ⟨records, hrecords, rfl⟩ := h
  obtain ⟨done, hdone, rfl⟩ := hfront
  obtain ⟨rest, hrest⟩ := wholeRecords_sublist n records
  have hkept : logOf (wholeRecords n records) <+: logOf records :=
    ⟨logOf rest, by rw [← logOf_append, hrest]⟩
  have hcut := recoverTail_cut n hrecords
  refine ⟨logOf (wholeRecords n records), hcut,
    ⟨_, fun r hr => hrecords r ((wholeRecords_sublist n records).subset hr), rfl⟩, ?_, hkept⟩
  -- the walk passes the first part, and drops nothing it has passed
  obtain ⟨more, hmore⟩ := prefix_take_iff.mpr ⟨hpre, hn⟩
  have hfuel := length_le_logOf done
  obtain ⟨fuel, hf⟩ : ∃ f, (logOf done ++ more).length + 1 = f + done.length :=
    ⟨(logOf done ++ more).length + 1 - done.length, by rw [length_append]; omega⟩
  rw [ValueLog.recoverTail, ← hmore, hf] at hcut
  have hkeeps := recoverTailFrom_keeps ((recoverTailFrom_pass more fuel [] hdone).symm.trans hcut)
  rw [nil_append, take_left] at hkeeps
  exact hkeeps

/-- Opening leaves a log of whole records as it is. -/
theorem Whole.recoverTail (h : Whole log) : recoverTail log = .ok log := by
  obtain ⟨records, hrecords, rfl⟩ := h
  have hrun := recoverTailFrom_records (.inl rfl) hrecords
    (Nat.lt_succ_of_le (length_le_logOf records))
  rw [append_nil] at hrun
  exact hrun

end ValueLog
end Vyrn
