import Vyrn.Lib.Transition
import Vyrn.Wal.Segment

/-!
# The log of an engine

A commit appends its record to the active segment, or leaves it in memory until the next drain; a
segment that is full is sealed by a rotation. A checkpoint publishes a manifest, rotates and retires
sealed segments. A rotation is a list of effects on the directory, so that it can be cut anywhere.
`Log.Sound` is what every step keeps: the directory holds segments as the writer leaves them, and
with the retired records and those in memory they are all records committed.
**`openLog_chained`**: such a directory opens to all of its records.
-/

namespace Vyrn

open ByteString List

namespace Wal

/-! ## The code: appending -/

/-- Segment files in the order of their ids. -/
abbrev Directory := List (Nat × Bytes)

/-- How far ahead of itself a writer lays zeros in one step. -/
def runwayStep : Nat := 2 ^ 20

def Writer.new (file : Bytes) (offset segmentSize : Nat) : Writer :=
  ⟨file, offset, offset, max 1 (min segmentSize runwayStep)⟩

theorem Writer.new_lays {file : Bytes} (body : Bytes) (n : Nat) (h : file = body ++ zeros n)
    (segmentSize : Nat) : (Writer.new file body.length segmentSize).Lays body :=
  ⟨⟨n, h, Nat.le_add_right _ _⟩, rfl, le_rfl⟩

/-- An engine's log. `sealed` are the segments before the active one, `pending` the records that
    are still in memory. Every record committed so far is in `records`, which only proofs read. -/
structure Log where
  manifest : TreeState
  sealed : Directory
  segmentId : Nat
  writer : Writer
  pending : List WalRecord
  walLen : Nat
  lastLsn : Nat
  segmentSize : Nat
  buffered : Bool
  records : List WalRecord

namespace Log

def directory (log : Log) : Directory := log.sealed ++ [(log.segmentId, log.writer.file)]

/-- Writes what is still in memory. -/
def drainPendingWal (log : Log) : Log :=
  { log with
    writer := log.pending.foldl (fun writer record => writer.append (frame record)) log.writer
    pending := [] }

end Log

/-- What a rotation does to the directory and then to the writer. -/
inductive Effect where
  | create
  | write (byte : Byte)
  | sync
  | syncDirectory
  | switch
  deriving DecidableEq, Repr

/-- A rotation under way: the log, and the successor once its file exists. -/
structure Rotation where
  log : Log
  successor : Option Bytes

namespace Rotation

def run (rotation : Rotation) : Effect → Rotation
  | .create => { rotation with successor := some [] }
  | .write byte => { rotation with successor := rotation.successor.map (fun file => file ++ [byte]) }
  | .sync | .syncDirectory => rotation
  | .switch =>
    match rotation.successor with
    | none => rotation
    | some file =>
      { log :=
          { rotation.log with
            sealed := rotation.log.directory
            segmentId := rotation.log.segmentId + 1
            writer :=
              { rotation.log.writer with
                file := file
                offset := segmentHeaderLen
                zeroed := segmentHeaderLen }
            walLen := segmentHeaderLen }
        successor := none }

def directory (rotation : Rotation) : Directory :=
  rotation.log.directory ++
    (rotation.successor.map (fun file => (rotation.log.segmentId + 1, file))).toList

end Rotation

namespace Log

/-- The effects of a rotation, the header written byte by byte. -/
def rotationEffects (log : Log) : List Effect :=
  [.create] ++ (segmentHeader (log.segmentId + 1) (log.lastLsn + 1)).map .write ++
    [.sync, .syncDirectory, .switch]

/-- A rotation after its first `count` effects. -/
def rotating (log : Log) (count : Nat) : Rotation :=
  ((log.drainPendingWal.rotationEffects).take count).foldl Rotation.run
    ⟨log.drainPendingWal, none⟩

def rotateSegment (log : Log) : Except Error Log :=
  if 256 ^ 8 ≤ log.segmentId + 1 then .error (.io "WAL segment number exhausted")
  else .ok (log.rotating log.drainPendingWal.rotationEffects.length).log

/-- Seals the active segment when a record of this size would overfill it. -/
def makeRoom (log : Log) (size : Nat) : Except Error Log :=
  if segmentHeaderLen < log.walLen ∧ log.segmentSize < log.walLen + size then log.rotateSegment
  else .ok log

/-- Logs a commit. -/
def appendBatch (log : Log) (operations : List BatchOperation) (root len : Nat) :
    Except Error Log := do
  if 256 ^ 8 ≤ log.lastLsn + 1 then throw (.io "WAL sequence number exhausted")
  let record : WalRecord := ⟨log.lastLsn + 1, operations, root, len⟩
  let bytes ← encodeRecord record
  let log ← log.makeRoom bytes.length
  return { log with
    writer := if log.buffered then log.writer else log.writer.append bytes
    pending := if log.buffered then log.pending ++ [record] else log.pending
    walLen := log.walLen + bytes.length
    lastLsn := record.lsn
    records := log.records ++ [record] }

end Log

/-! ## The code: opening -/

/-- Ids without a gap. -/
def gapless : List Nat → Bool
  | first :: second :: rest => second = first + 1 && gapless (second :: rest)
  | _ => true

/-- The segments, refused when one is missing between two others. -/
def listSegments (directory : Directory) : Except Error Directory :=
  if gapless (directory.map Prod.fst) then .ok directory
  else .error (.corruptManifest "WAL segment sequence has a gap")

/-- The segments one after the other; a successor's header says where a sealed segment ends. -/
def replaySegments : Directory → Recovered → Except Error (Nat × Directory × Recovered)
  | [], recovered => .ok (segmentHeaderLen, [], recovered)
  | [(id, file)], recovered => do
    let (stop, file, recovered) ← replaySegment file id none recovered
    return (stop, [(id, file)], recovered)
  | (id, file) :: (nextId, next) :: rest, recovered => do
    let firstLsn ← readSegmentFirstLsn next
    let (_, file, recovered) ← replaySegment file id (some firstLsn) recovered
    let (stop, directory, recovered) ← replaySegments ((nextId, next) :: rest) recovered
    return (stop, (id, file) :: directory, recovered)

/-- What opening finds in the log's directory, and what it leaves there. -/
structure OpenedLog where
  recovered : Recovered
  sealed : Directory
  segmentId : Nat
  file : Bytes
  walLen : Nat

def OpenedLog.directory (opened : OpenedLog) : Directory :=
  opened.sealed ++ [(opened.segmentId, opened.file)]

def openLog (manifest : TreeState) (directory : Directory) : Except Error OpenedLog := do
  let directory ← listSegments directory
  let (stop, directory, recovered) ← replaySegments directory ⟨manifest, []⟩
  let next := recovered.state.lsn + 1
  match directory.getLast? with
  | none => return ⟨recovered, [], 1, segmentHeader 1 next, segmentHeaderLen⟩
  | some (id, file) =>
    if stop ≠ segmentHeaderLen then return ⟨recovered, directory.dropLast, id, file, stop⟩
    else if (← readSegmentFirstLsn file) = next then
      return ⟨recovered, directory.dropLast, id, file, stop⟩
    else
      -- an empty segment whose header names another LSN is written anew
      return ⟨recovered, directory.dropLast, id, segmentHeader id next, segmentHeaderLen⟩

/-- What opening does with the tree's files: adopts the newest root, or redoes the records. -/
def recoverTree (pages : Pages) (values : Bytes) (manifest : TreeState) (recovered : Recovered) :
    Except Error PageTree :=
  match openValidated pages values recovered.state.root recovered.state.len with
  | .ok tree => .ok tree
  | .error _ => redoFromCheckpoint pages values manifest recovered.redo

/-- Opening a database: its log and its tree. -/
def openEngine (manifest : TreeState) (directory : Directory) (pages : Pages) (values : Bytes) :
    Except Error (OpenedLog × PageTree) := do
  let opened ← openLog manifest directory
  let tree ← recoverTree pages values manifest opened.recovered
  return (opened, tree)

/-! ## The system -/

namespace Log

/-- The log of a new database. -/
def created (segmentSize : Nat) (buffered : Bool) : Log :=
  { manifest := ⟨0, 0, 0⟩
    sealed := []
    segmentId := 1
    writer := .new (segmentHeader 1 1) segmentHeaderLen segmentSize
    pending := []
    walLen := segmentHeaderLen
    lastLsn := 0
    segmentSize := segmentSize
    buffered := buffered
    records := [] }

inductive Event where
  | commit (operations : List BatchOperation) (root len : Nat)
  | drain
  | rotate
  | publish (root len : Nat)
  | retire (archivedThrough : Option Nat)
  | reopen

/-- One event, `none` where it cannot happen or the code returns an error. -/
def act (log : Log) : Event → Option Log
  | .commit operations root len =>
    if operations ≠ [] ∧ (∀ operation ∈ operations, operation.Valid) ∧ root < 256 ^ 8 ∧
        len < 256 ^ 8 then
      (log.appendBatch operations root len).toOption
    else none
  | .drain => some log.drainPendingWal
  | .rotate => log.rotateSegment.toOption
  | .publish root len =>
    some { log.drainPendingWal with manifest := ⟨root, len, log.lastLsn⟩ }
  | .retire archivedThrough =>
    if log.manifest.lsn = log.lastLsn then
      some { log with
        sealed := log.sealed.filter (fun segment => archivedThrough.any (fun id => id < segment.1)) }
    else none
  | .reopen =>
    match openLog log.manifest log.drainPendingWal.directory with
    | .error _ => none
    | .ok opened =>
      some { log with
        sealed := opened.sealed
        segmentId := opened.segmentId
        writer := .new opened.file opened.walLen log.segmentSize
        pending := []
        walLen := opened.walLen
        lastLsn := opened.recovered.state.lsn }

def Step (log : Log) (event : Event) (after : Log) : Prop := act log event = some after

end Log

/-! ## Directories as the writer leaves them -/

section Chained

/-- Segments one behind the other, from this id and LSN on. -/
def Chained : Nat → Nat → List Segment → Prop
  | _, _, [] => True
  | id, lsn, segment :: rest =>
    segment.id = id ∧ segment.firstLsn = lsn ∧ segment.Sound ∧
      Chained (id + 1) (lsn + segment.records.length) rest

def files (segments : List Segment) : Directory :=
  segments.map (fun segment => (segment.id, segment.file))

def recordsOf (segments : List Segment) : List WalRecord := segments.flatMap Segment.records

variable {id lsn nextId : Nat} {segments : List Segment} {last : Segment} {recovered : Recovered}
  {next : Bytes}

theorem recordsOf_cons (segment : Segment) (rest : List Segment) :
    recordsOf (segment :: rest) = segment.records ++ recordsOf rest :=
  flatMap_cons

theorem recordsOf_concat (segments : List Segment) (last : Segment) :
    recordsOf (segments ++ [last]) = recordsOf segments ++ last.records := by
  simp [recordsOf]

theorem files_cons (segment : Segment) (rest : List Segment) :
    files (segment :: rest) = (segment.id, segment.file) :: files rest := rfl

theorem files_concat (segments : List Segment) (last : Segment) :
    files (segments ++ [last]) = files segments ++ [(last.id, last.file)] :=
  map_append

theorem chained_append {front rest : List Segment} :
    Chained id lsn (front ++ rest) ↔
      Chained id lsn front ∧
        Chained (id + front.length) (lsn + (recordsOf front).length) rest := by
  induction front generalizing id lsn with
  | nil => simp [Chained, recordsOf]
  | cons segment front ih =>
    rw [cons_append, Chained, Chained, ih, recordsOf_cons, length_append, length_cons]
    simp only [and_assoc, add_assoc, add_comm 1]

theorem Chained.lsns (h : Chained id lsn segments) : Consecutive lsn (recordsOf segments) := by
  induction segments generalizing id lsn with
  | nil => trivial
  | cons segment segments ih =>
    obtain ⟨-, rfl, hsound, hrest⟩ := h
    rw [recordsOf_cons, consecutive_append]
    exact ⟨hsound.lsns, ih hrest⟩

theorem gapless_files (h : Chained id lsn segments) :
    gapless ((files segments).map Prod.fst) = true := by
  induction segments generalizing id lsn with
  | nil => rfl
  | cons segment rest ih =>
    obtain ⟨_, -, -, hrest⟩ := h
    cases rest with
    | nil => rfl
    | cons next rest =>
      have hnext := hrest.1
      simp only [files, map_cons, gapless, Bool.and_eq_true, decide_eq_true_eq]
      exact ⟨by omega, ih hrest⟩

/-- What replaying the first of several segments does, once its successor's header is read. -/
theorem replaySegments_next {segment : Segment} (h : segment.Sound)
    (hgoes : segment.firstLsn ≤ recovered.state.lsn + 1)
    (hnext : readSegmentFirstLsn next = .ok (segment.firstLsn + segment.records.length))
    (rest : Directory) :
    replaySegments ((segment.id, segment.file) :: (nextId, next) :: rest) recovered =
      (replaySegments ((nextId, next) :: rest) (recovered.extend segment.records)).map
        (fun replayed => (replayed.1, (segment.id, segment.file) :: replayed.2.1, replayed.2.2)) := by
  obtain ⟨stop, hreplay, -⟩ := replaySegment_file h recovered
    (some (segment.firstLsn + segment.records.length)) hgoes (fun _ hsome => (Option.some.inj hsome).symm)
  rw [replaySegments, hnext]
  simp only [ok_bind, hreplay]
  cases replaySegments ((nextId, next) :: rest) (recovered.extend segment.records) <;> rfl

/-- Segments one behind the other are passed, and what follows them is replayed. -/
theorem replaySegments_append (h : Chained id lsn segments) (hgoes : lsn ≤ recovered.state.lsn + 1)
    (hnext : readSegmentFirstLsn next = .ok (lsn + (recordsOf segments).length))
    (rest : Directory) :
    replaySegments (files segments ++ (nextId, next) :: rest) recovered =
      (replaySegments ((nextId, next) :: rest) (recovered.extend (recordsOf segments))).map
        (fun replayed => (replayed.1, files segments ++ replayed.2.1, replayed.2.2)) := by
  induction segments generalizing id lsn recovered with
  | nil =>
    show replaySegments ((nextId, next) :: rest) recovered = _
    cases hreplay : replaySegments ((nextId, next) :: rest) recovered <;>
      simp [recordsOf, Recovered.extend, hreplay, Except.map, files]
  | cons segment segments ih =>
    obtain ⟨_, hlsn, hsound, hrest⟩ := h
    have hextend := recovered.extend_lsn hsound.lsns (by omega)
    rw [recordsOf_cons, length_append, ← add_assoc] at hnext
    have htail := @ih _ _ (recovered.extend segment.records) hrest (by omega) hnext
    rw [recordsOf_cons, Recovered.extend_append]
    -- the successor is the next of the segments, or what follows them
    cases segments with
    | nil =>
      rw [recordsOf, flatMap_nil, length_nil, add_zero, ← hlsn] at hnext
      refine (replaySegments_next hsound (by omega) hnext rest).trans ?_
      rfl
    | cons successor segments =>
      have hfirst := readSegmentFirstLsn_file hrest.2.2.1
      rw [hrest.2.1, ← hlsn] at hfirst
      refine (replaySegments_next hsound (by omega) hfirst
        (files segments ++ (nextId, next) :: rest)).trans ?_
      refine (congrArg (Except.map _) htail).trans ?_
      cases replaySegments ((nextId, next) :: rest)
        ((recovered.extend segment.records).extend (recordsOf (successor :: segments))) <;> rfl

section

variable (recovered : Recovered) (h : Chained id lsn (segments ++ [last]))
  (hgoes : lsn ≤ recovered.state.lsn + 1)
include h hgoes

/-- **DIRECTORY**: segments one behind the other are replayed to the end of the last. -/
theorem replaySegments_files :
    replaySegments (files (segments ++ [last])) recovered =
      .ok (last.body.length, files (segments ++ [last]),
        recovered.extend (recordsOf (segments ++ [last]))) := by
  obtain ⟨hfront, -, hlsn, hsound, -⟩ := chained_append.mp h
  have hfirst := readSegmentFirstLsn_file hsound
  rw [hlsn] at hfirst
  have hextend := recovered.extend_lsn hfront.lsns hgoes
  obtain ⟨stop, hreplay, hstop⟩ := replaySegment_file hsound
    (recovered.extend (recordsOf segments)) none (by omega) nofun
  rw [hstop rfl] at hreplay
  rw [files_concat, replaySegments_append hfront hgoes hfirst [], replaySegments, hreplay,
    recordsOf_concat, Recovered.extend_append]
  rfl

/-- A successor without a whole header stops every replay. -/
theorem replaySegments_short (nextId : Nat) (short : Bytes)
    (hshort : short.length < segmentHeaderLen) :
    replaySegments (files (segments ++ [last]) ++ [(nextId, short)]) recovered =
      .error (.io "failed to fill whole buffer") := by
  obtain ⟨hfront, -, hlsn, hsound, -⟩ := chained_append.mp h
  have hfirst := readSegmentFirstLsn_file hsound
  rw [hlsn] at hfirst
  have hread : readSegmentFirstLsn short = .error (.io "failed to fill whole buffer") :=
    if_pos hshort
  have hsplit : files (segments ++ [last]) ++ [(nextId, short)] =
      files segments ++ (last.id, last.file) :: [(nextId, short)] := by
    rw [files_concat, append_assoc]
    rfl
  rw [hsplit, replaySegments_append hfront hgoes hfirst, replaySegments, hread]
  rfl

end

/-- **OPEN**: such a directory opens to all of its records, and is left as it is. -/
theorem openLog_chained (manifest : TreeState) (h : Chained id lsn (segments ++ [last]))
    (hgoes : lsn ≤ manifest.lsn + 1)
    (hlast : manifest.lsn + 1 ≤ lsn + (recordsOf (segments ++ [last])).length) :
    openLog manifest (files (segments ++ [last])) =
      .ok ⟨(Recovered.mk manifest []).extend (recordsOf (segments ++ [last])), files segments,
        last.id, last.file, last.body.length⟩ := by
  have hextend := (Recovered.mk manifest []).extend_lsn h.lsns hgoes
  have hreplay := replaySegments_files ⟨manifest, []⟩ h hgoes
  have hgap : listSegments (files (segments ++ [last])) = .ok (files (segments ++ [last])) :=
    if_pos (gapless_files h)
  obtain ⟨-, -, _, hsound, -⟩ := chained_append.mp h
  rw [openLog, hgap, ok_bind, hreplay, ok_bind]
  dsimp only
  rw [files_concat, getLast?_concat]
  dsimp only
  rw [dropLast_concat]
  split_ifs with hempty
  · rfl
  · -- an empty active segment begins where recovery ends
    have hnone := length_le_frames last.records
    rw [length_body] at hempty
    have htotal : (recordsOf (segments ++ [last])).length = (recordsOf segments).length := by
      rw [recordsOf_concat, length_append]
      omega
    dsimp only at hextend
    rw [readSegmentFirstLsn_file hsound, ok_bind, if_pos (by omega)]
    rfl

end Chained

/-! ## What every step keeps -/

namespace Log

/-- What an engine's log holds: the records of retired segments, the sealed segments, the active one
    and what is still in memory. -/
structure Holds (log : Log) (retired : List WalRecord) (segments : List Segment)
    (active : Segment) : Prop where
  chained : ∃ id, Chained id (retired.length + 1) (segments ++ [active])
  sealed : log.sealed = files segments
  segmentId : log.segmentId = active.id
  file : log.writer.file = active.file
  lays : log.writer.Lays active.body
  pending : ∀ record ∈ log.pending, Encodable record
  records : log.records = retired ++ recordsOf (segments ++ [active]) ++ log.pending
  lsns : Consecutive 1 log.records
  lastLsn : log.records.length = log.lastLsn
  retired : retired.length ≤ log.manifest.lsn
  manifest : log.manifest.lsn ≤ log.lastLsn
  eager : log.buffered = false → log.pending = []

def Sound (log : Log) : Prop := ∃ retired segments active, Holds log retired segments active

variable {log after : Log} {retired : List WalRecord} {segments : List Segment} {active : Segment}

theorem lays_foldl {writer : Writer} {body : Bytes} (h : writer.Lays body)
    (records : List WalRecord) :
    (records.foldl (fun writer record => writer.append (frame record)) writer).Lays
      (body ++ frames records) := by
  induction records generalizing writer body with
  | nil =>
    rw [frames, map_nil, flatten_nil, append_nil]
    exact h
  | cons record records ih =>
    rw [foldl_cons, frames_cons, ← append_assoc]
    exact ih (h.append (frame record))

section

variable (h : Holds log retired segments active)
include h

/-- The active segment with records behind its own. -/
theorem Holds.sound_concat {more : List WalRecord} (hmore : ∀ record ∈ more, Encodable record)
    (hlsns : Consecutive (retired.length + 1 + (recordsOf (segments ++ [active])).length) more)
    (runway : Nat) :
    ∃ id, Chained id (retired.length + 1)
      (segments ++ [{ active with records := active.records ++ more, runway := runway }]) := by
  obtain ⟨id, hchained⟩ := h.chained
  obtain ⟨hfront, hid, hfirst, hsound, -⟩ := chained_append.mp hchained
  refine ⟨id, chained_append.mpr ⟨hfront, hid, hfirst, ⟨hsound.id, hsound.firstLsn, ?_, ?_⟩,
    trivial⟩⟩
  · refine consecutive_append.mpr ⟨hsound.lsns, ?_⟩
    rw [recordsOf_concat, length_append] at hlsns
    show Consecutive (active.firstLsn + active.records.length) more
    rwa [hfirst, add_assoc]
  · exact forall_mem_append.mpr ⟨hsound.encodable, hmore⟩

theorem Holds.lsns_pending :
    Consecutive (retired.length + 1 + (recordsOf (segments ++ [active])).length) log.pending := by
  have hlsns := h.lsns
  rw [h.records, consecutive_append] at hlsns
  have hpending := hlsns.2
  rw [length_append] at hpending
  rwa [show retired.length + 1 + (recordsOf (segments ++ [active])).length =
    1 + (retired.length + (recordsOf (segments ++ [active])).length) by omega]

/-- Draining lays what was in memory behind the records of the active segment. -/
theorem Holds.drain :
    ∃ runway, Holds log.drainPendingWal retired segments
      { active with records := active.records ++ log.pending, runway := runway } := by
  have hlays := lays_foldl h.lays log.pending
  have hbody : active.body ++ frames log.pending =
      Segment.body { active with records := active.records ++ log.pending } := by
    rw [Segment.body, Segment.body, frames_append, append_assoc]
  obtain ⟨n, hfile, -⟩ := hlays.file
  refine ⟨n, ?_⟩
  constructor
  · exact h.sound_concat h.pending h.lsns_pending n
  · exact h.sealed
  · exact h.segmentId
  · refine hfile.trans ?_
    rw [hbody]
    rfl
  · rw [hbody] at hlays
    exact hlays
  · exact forall_mem_nil _
  · refine h.records.trans ?_
    rw [recordsOf_concat, recordsOf_concat]
    simp [drainPendingWal]
  · exact h.lsns
  · exact h.lastLsn
  · exact h.retired
  · exact h.manifest
  · exact fun _ => rfl

end

end Log

end Wal

end Vyrn
