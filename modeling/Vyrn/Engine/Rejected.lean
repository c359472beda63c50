import Vyrn.Engine.Checkpoint
import Vyrn.Wal.Rotation

/-!
# A replicated record that fails

`apply_replicated_record` counts a record, appends it and mutates the tree step by step. A commit
that fails from its append on poisons the engine; here the error is returned and nothing else. So a
failure is without effect exactly when it comes before the record is counted and leaves no new
segment behind, or when the writer could not be switched, which poisons
(**`rejected_record_iff`**). A record that fails behind its append and is sent again is logged twice
(**`record_logged_twice`**).
-/

namespace Vyrn

open Wal

/-! ## The log, with its failures -/

/-- How far a failed append got: into the zeros it lays ahead, or into the record. -/
inductive Tear where
  | zeros (count : Nat)
  | record (count : Nat)

/-- The writer behind a failed append. Its offset stays, so the next append starts on the same
    byte. -/
def Wal.Writer.tear (writer : Writer) (bytes : Bytes) : Tear → Writer
  | .zeros count =>
    let laid := (writer.reserve bytes.length).zeroed - writer.zeroed
    { writer with file := writeAllAt writer.file (Wal.zeros (min count laid)) writer.zeroed }
  | .record count =>
    let writer := writer.reserve bytes.length
    { writer with file := writeAllAt writer.file (bytes.take count) writer.offset }

/-- A drain that stops behind `count` records. What it took out of memory is gone. -/
def Wal.Log.drainTorn (log : Log) (count : Nat) (tear : Tear) : Log :=
  let writer := (log.pending.take count).foldl
    (fun writer record => writer.append (frame record)) log.writer
  { log with
    writer := (log.pending.drop count).head?.elim writer
      (fun record => writer.tear (frame record) tear)
    pending := [] }

/-- Where a rotation stops. -/
inductive RotationFault where
  /-- The files of the tree and of the values, which are synced before a drain. -/
  | files
  | drain (count : Nat) (tear : Tear)
  | flush
  /-- `create_segment`: before the file exists, or with so many bytes of its header. -/
  | create (written : Option Nat)
  /-- `Wal::rotate`, with the outcome of the removal that follows. -/
  | switch (removed : Bool)

/-- A rotation behind its `sync`: the successor is created and the writer switched, or what happens
    instead. A successor that is there already is one that an earlier failure left. -/
def Wal.Rotation.advance (drained : Rotation) (instead : Option (Error × Bool × Option Bytes)) :
    Option (Error × Bool) × Rotation :=
  match drained.log.rotateSegment with
  | .error error => (some (error, false), drained)
  | .ok rotated =>
    if drained.successor.isSome then (some (.io "File exists (os error 17)", false), drained)
    else
      match instead with
      | some (error, poisons, left) => (some (error, poisons), { drained with successor := left })
      | none => (none, ⟨rotated, none⟩)

/-- `rotate_segment`: its error, if any, with whether the engine is poisoned, and the log it
    leaves. -/
def Wal.Rotation.rotateSegment (rotation : Rotation) (fault : Option (Error × RotationFault)) :
    Option (Error × Bool) × Rotation :=
  let log := rotation.log
  let drained := { rotation with log := log.drainPendingWal }
  let header := segmentHeader (log.segmentId + 1) (log.lastLsn + 1)
  match fault with
  | none => drained.advance none
  | some (error, .files) => (some (error, false), rotation)
  | some (error, .drain count tear) =>
    (some (error, true), { rotation with log := log.drainTorn count tear })
  | some (error, .flush) => (some (error, false), drained)
  | some (error, .create written) => drained.advance (some (error, false, written.map header.take))
  | some (error, .switch removed) =>
    drained.advance (some (error, true, if removed then none else some header))

/-! ## The record, with its failures -/

/-- What the files do to one record. -/
structure RecordFaults where
  rotation : Option (Error × RotationFault) := none
  append : Option (Error × Tear) := none
  /-- The errors of the mutations, two for each operation: its own, and its tombstone's. -/
  mutations : List (Option Error × Option Error) := []
  count : Option Error := none

/-- An engine with the files of its log. Both have the last LSN. -/
structure Replica where
  engine : Engine
  wal : Rotation

def orFault {α : Type} (fault : Option Error) (result : Except Error α) : Except Error α :=
  fault.elim result .error

/-- `replicatedOperations` with the mutations that were published before an error. -/
def attemptOperations (lsn : Nat) : List (Option Error × Option Error) → PageTree → Bool →
    List BatchOperation → Except Error Unit × PageTree × Bool
  | _, tree, possible, [] => (.ok (), tree, possible)
  | faults, tree, possible, operation :: rest =>
    let fault := faults.headD (none, none)
    match orFault fault.1 (replayMain lsn tree operation) with
    | .error error => (.error error, tree, possible)
    | .ok (happened, middle) =>
      if happened && !isInternal operation.key then
        match orFault fault.2 (replayTombstone lsn middle operation) with
        | .error error => (.error error, middle, possible || operation.isDelete)
        | .ok tree =>
          attemptOperations lsn faults.tail tree (possible || operation.isDelete) rest
      else attemptOperations lsn faults.tail middle possible rest

namespace Replica

/-- The record of this size needs a new segment. -/
@[reducible] def Overfills (replica : Replica) (record : WalRecord) : Prop :=
  segmentHeaderLen < replica.wal.log.walLen ∧
    replica.wal.log.segmentSize < replica.wal.log.walLen + (frame record).length

/-- Rotates for the record if it has to. -/
def makeRoom (replica : Replica) (record : WalRecord) (fault : Option (Error × RotationFault)) :
    Option (Error × Bool) × Rotation :=
  if replica.Overfills record then replica.wal.rotateSegment fault else (none, replica.wal)

/-- `applyReplicatedRecord` on the bytes of the log, with the state that an error leaves behind. -/
def applyReplicatedRecord (replica : Replica) (record : WalRecord) (faults : RecordFaults) :
    Except Error Nat × Replica :=
  let engine := replica.engine
  let expected := min (engine.lastLsn + 1) (2 ^ 64 - 1)
  if engine.poisoned then (.error .poisoned, replica)
  else if engine.writeBack.isSome then
    (.error (.invalidReplicatedRecord "write-back buffering is not supported on a replica"),
      replica)
  else if record.lsn ≠ expected then
    (.error (.invalidReplicatedRecord ("record LSN " ++ toString record.lsn ++
      " does not follow this replica's last LSN " ++ toString engine.lastLsn ++
      "; expected " ++ toString expected)), replica)
  else
    match replica.makeRoom record faults.rotation with
    | (some (error, poisons), wal) => (.error error, ⟨{ engine with poisoned := poisons }, wal⟩)
    | (none, wal) =>
      -- counted before it is written
      let log := { wal.log with walLen := wal.log.walLen + (frame record).length }
      match faults.append with
      | some (error, tear) =>
        let writer := log.writer.tear (frame record) tear
        (.error error, ⟨engine, { wal with log := { log with writer := writer } }⟩)
      | none =>
        let log := { log with
          writer := log.writer.append (frame record), records := log.records ++ [record] }
        let (result, tree, possible) := attemptOperations record.lsn faults.mutations engine.tree
          engine.tombstonesPossible record.operations
        let engine := { engine with
          tree := tree, tombstonesPossible := possible, wal := engine.wal ++ [record] }
        match result with
        | .error error => (.error error, ⟨engine, { wal with log := log }⟩)
        | .ok () =>
          let engine := { engine with lastLsn := record.lsn }
          let wal := { wal with log := { log with lastLsn := record.lsn } }
          match orFault faults.count (tree.countExcluding internalPrefix) with
          | .error error => (.error error, ⟨engine, wal⟩)
          | .ok count => (.ok record.lsn, ⟨{ engine with userLen := count }, wal⟩)

end Replica

/-! ## Without a failure -/

theorem orFault_eq_ok {α : Type} {fault : Option Error} {result : Except Error α} {a : α} :
    orFault fault result = .ok a ↔ fault = none ∧ result = .ok a := by
  cases fault <;> simp [orFault]

variable {lsn : Nat}

theorem attemptOperations_ok {operations : List BatchOperation} :
    ∀ {faults : List (Option Error × Option Error)} {tree after : PageTree} {possible noted : Bool},
      attemptOperations lsn faults tree possible operations = (.ok (), after, noted) →
      replicatedOperations lsn tree possible operations = .ok (after, noted) := by
  induction operations with
  | nil =>
    rintro faults tree after possible noted ⟨⟩
    rfl
  | cons operation rest ih =>
    intro faults tree after possible noted h
    rw [attemptOperations] at h
    split at h
    · cases h
    · next happened middle hmain =>
      rw [replicatedOperations, (orFault_eq_ok.mp hmain).2, ok_bind]
      dsimp only
      split_ifs at h ⊢ with htomb
      · split at h
        · cases h
        · next after hstep =>
          rw [(orFault_eq_ok.mp hstep).2, ok_bind]
          exact ih h
      · exact ih h

/-- An application that succeeds is the engine's own. -/
theorem Replica.applyReplicatedRecord_ok {replica after : Replica} {record : WalRecord}
    {faults : RecordFaults} (h : replica.applyReplicatedRecord record faults = (.ok lsn, after)) :
    replica.engine.applyReplicatedRecord record = .ok (lsn, after.engine) := by
  rw [applyReplicatedRecord] at h
  dsimp only at h
  rcases hloop : attemptOperations record.lsn faults.mutations replica.engine.tree
    replica.engine.tombstonesPossible record.operations with ⟨result, tree, possible⟩
  rw [hloop] at h
  split_ifs at h with hpoisoned hbuffer hlsn <;> try cases h
  split at h <;> try cases h
  split at h <;> try cases h
  cases result with
  | error => cases h
  | ok =>
    dsimp only at h
    split at h
    · cases h
    · next count hcount =>
      cases h
      rw [Engine.applyReplicatedRecord, ensureHealthy_ok (Bool.not_eq_true _ ▸ hpoisoned), ok_bind]
      dsimp only
      rw [if_neg hbuffer, if_neg hlsn, attemptOperations_ok hloop, ok_bind]
      dsimp only
      rw [(orFault_eq_ok.mp hcount).2]
      rfl

/-! ## With one -/

namespace Wal.Rotation

/-- There is no number for a successor, or a file of that name. -/
def Blocked (rotation : Rotation) : Prop :=
  256 ^ 8 ≤ rotation.log.segmentId + 1 ∨ rotation.successor.isSome

/-- The rotation stops, and not with a new segment to which the writer was not switched. -/
def Stays (rotation : Rotation) (fault : Option (Error × RotationFault)) : Prop :=
  rotation.Blocked ∨ ∃ error stop, fault = some (error, stop) ∧ ∀ n, stop ≠ .create (some n)

variable {rotation after : Rotation} {outcome : Option (Error × Bool)}

/-- A rotation is blocked, fails and may leave a successor, or starts a segment. -/
theorem advance_cases {instead : Option (Error × Bool × Option Bytes)}
    (h : rotation.advance instead = (outcome, after)) :
    (rotation.Blocked ∧ ∃ error, outcome = some (error, false) ∧ after = rotation) ∨
      ¬ rotation.Blocked ∧
        ((∃ error poisons left, instead = some (error, poisons, left) ∧
            outcome = some (error, poisons) ∧ after = { rotation with successor := left }) ∨
          instead = none ∧ outcome = none ∧
            after.log.segmentId = rotation.log.segmentId + 1) := by
  rw [advance] at h
  split at h
  · next error hrotate =>
    cases h
    rw [Log.rotateSegment] at hrotate
    split_ifs at hrotate with hid
    exact .inl ⟨.inl hid, error, rfl, rfl⟩
  · next rotated hrotate =>
    obtain ⟨hid, hrotated⟩ := Log.rotateSegment_ok hrotate
    split_ifs at h with hexists
    · cases h
      exact .inl ⟨.inr hexists, _, rfl, rfl⟩
    · refine .inr ⟨not_or.mpr ⟨not_le.mpr hid, hexists⟩, ?_⟩
      split at h
      · cases h
        exact .inl ⟨_, _, _, rfl, rfl, rfl⟩
      · cases h
        exact .inr ⟨rfl, rfl, by rw [hrotated]⟩

/-- A rotation that stops leaves the log alone or poisons, unless it leaves a new segment; one that
    does not stop goes on in the next segment. -/
theorem rotateSegment_cases {fault : Option (Error × RotationFault)}
    (h : rotation.rotateSegment fault = (outcome, after)) :
    (outcome = none ∧ ¬ rotation.Stays fault ∧
        after.log.segmentId = rotation.log.segmentId + 1) ∨
      ∃ error poisons, outcome = some (error, poisons) ∧
        ((poisons = true ∨ after.successor = rotation.successor ∧
          after.log.drainPendingWal = rotation.log.drainPendingWal) ↔ rotation.Stays fault) := by
  have hdrained : rotation.log.drainPendingWal.drainPendingWal = rotation.log.drainPendingWal := rfl
  rcases fault with _ | ⟨error, stop⟩
  · rw [rotateSegment] at h
    obtain ⟨hblocked, error, rfl, rfl⟩ | ⟨hfree, ⟨error, poisons, left, ⟨⟩, -⟩ | ⟨-, rfl, hid⟩⟩ :=
      advance_cases h
    · exact .inr ⟨error, false, rfl, iff_of_true (.inr ⟨rfl, rfl⟩) (.inl hblocked)⟩
    · have hblocked : ¬ rotation.Blocked := hfree
      exact .inl ⟨rfl, by simp [Stays, hblocked], hid⟩
  · refine .inr ?_
    cases stop with
    | files | drain | flush =>
      cases h
      exact ⟨_, _, rfl, by simp [Stays, hdrained]⟩
    | create | switch =>
      rw [rotateSegment] at h
      obtain ⟨hblocked, error, rfl, rfl⟩ | ⟨hfree, ⟨_, _, _, ⟨⟩, rfl, rfl⟩ | ⟨⟨⟩, -⟩⟩ :=
        advance_cases h
      · exact ⟨error, false, rfl, iff_of_true (.inr ⟨rfl, rfl⟩) (.inl hblocked)⟩
      · have hblocked : ¬ rotation.Blocked := hfree
        have hnone : rotation.successor = none :=
          Option.not_isSome_iff_eq_none.mp (not_or.mp hblocked).2
        exact ⟨_, _, rfl, by
          simp [Stays, hblocked, hnone, hdrained, Option.eq_none_iff_forall_ne_some]⟩

end Wal.Rotation

namespace Replica

/-- The engine refuses all further work, or nothing is different: the files of the log once what is
    in memory is written, its length, the last LSN, every value and revision and the count. -/
def Spares (replica after : Replica) : Prop :=
  after.engine.poisoned = true ∨
    (after.wal.successor = replica.wal.successor ∧
      after.wal.log.drainPendingWal = replica.wal.log.drainPendingWal ∧
      after.engine.wal = replica.engine.wal ∧ after.engine.lastLsn = replica.engine.lastLsn ∧
      (∀ key, after.engine.treeGet key = replica.engine.treeGet key ∧
        after.engine.treeRevision key = replica.engine.treeRevision key) ∧
      after.engine.userLen = replica.engine.userLen)

/-- The record is refused, or fails in a rotation that stays. -/
def Refuses (replica : Replica) (record : WalRecord) (faults : RecordFaults) : Prop :=
  replica.engine.poisoned ∨ replica.engine.writeBack.isSome ∨
    record.lsn ≠ min (replica.engine.lastLsn + 1) (2 ^ 64 - 1) ∨
    (replica.Overfills record ∧ replica.wal.Stays faults.rotation)

variable {replica after : Replica} {record : WalRecord} {faults : RecordFaults}

/-- Room was there, or the log goes on in the next segment. -/
theorem makeRoom_none {wal : Rotation}
    (h : replica.makeRoom record faults.rotation = (none, wal)) :
    (wal.log = replica.wal.log ∨ wal.log.segmentId = replica.wal.log.segmentId + 1) ∧
      ¬ (replica.Overfills record ∧ replica.wal.Stays faults.rotation) := by
  rw [makeRoom] at h
  split_ifs at h with hfull
  · obtain ⟨-, hstays, hid⟩ | ⟨-, -, ⟨⟩, -⟩ := Rotation.rotateSegment_cases h
    exact ⟨.inr hid, fun hboth => hstays hboth.2⟩
  · cases h
    exact ⟨.inl rfl, fun hboth => hfull hboth.1⟩

end Replica

/-- **REJECTED**: an error has no effect exactly when the record is refused before it is counted. -/
theorem rejected_record_iff {replica after : Replica} {record : WalRecord} {faults : RecordFaults}
    {error : Error}
    (h : replica.applyReplicatedRecord record faults = (.error error, after)) :
    replica.Spares after ↔ replica.Refuses record faults := by
  rw [Replica.applyReplicatedRecord] at h
  dsimp only at h
  split_ifs at h with hpoisoned hbuffer hlsn
  · cases h
    simp [Replica.Spares, Replica.Refuses, hpoisoned]
  · cases h
    simp [Replica.Spares, Replica.Refuses, hbuffer]
  · cases h
    exact iff_of_true (.inr ⟨rfl, rfl, rfl, rfl, fun _ => ⟨rfl, rfl⟩, rfl⟩) (.inr (.inr (.inl hlsn)))
  · have hhealthy : replica.engine.poisoned = false := Bool.not_eq_true _ ▸ hpoisoned
    have hrefuses : replica.Refuses record faults ↔
        replica.Overfills record ∧ replica.wal.Stays faults.rotation := by
      rw [Replica.Refuses]
      tauto
    rw [hrefuses]
    split at h
    · next wal hroom =>
      cases h
      rw [Replica.makeRoom] at hroom
      split_ifs at hroom with hfull
      · obtain ⟨hnone, -⟩ | ⟨error, poisons, hsome, hstays⟩ := Rotation.rotateSegment_cases hroom
        · cases hnone
        · cases hsome
          rw [and_iff_right hfull, ← hstays]
          simp [Replica.Spares, Engine.treeGet, Engine.treeRevision]
      · cases hroom
    · next wal hroom =>
      obtain ⟨hlog, hstays⟩ := Replica.makeRoom_none hroom
      refine iff_of_false ?_ hstays
      -- whatever fails now, the record is counted and the engine goes on
      have hcounted : after.engine.poisoned = false ∧
          after.wal.log.walLen = wal.log.walLen + (frame record).length ∧
          after.wal.log.segmentId = wal.log.segmentId := by
        split at h
        · cases h
          exact ⟨hhealthy, rfl, rfl⟩
        · split at h
          · cases h
            exact ⟨hhealthy, rfl, rfl⟩
          · split at h
            · cases h
              exact ⟨hhealthy, rfl, rfl⟩
            · cases h
      obtain ⟨hserves, hlen, _⟩ := hcounted
      rintro (hpoisoned | ⟨-, hsame, -⟩)
      · rw [hserves] at hpoisoned
        cases hpoisoned
      · have hsameLen := congrArg Log.walLen hsame
        have hsameId := congrArg Log.segmentId hsame
        dsimp only [Log.drainPendingWal] at hsameLen hsameId
        have hpos : 0 < (frame record).length := by
          rw [length_frame, totalLen]
          exact Nat.add_pos_left (Nat.add_pos_left (by decide) _) _
        obtain hkept | _ := hlog
        · rw [hkept] at hlen
          omega
        · omega

/-- An empty replica with segments of 64 bytes. -/
def emptyReplica : Replica := ⟨.atRest PageTree.fresh, ⟨.created 64 false, none⟩⟩

def fullDisk : Error := .io "No space left on device (os error 28)"

/-- The second record needs a new segment, whose file cannot be created. -/
theorem rejected_record_unlogged :
    let replica := (emptyReplica.applyReplicatedRecord ⟨1, [.put [1] [10]], 0, 0⟩ {}).2
    let record : WalRecord := ⟨2, [.put [1] [11], .delete [2]], 0, 0⟩
    let faults : RecordFaults := { rotation := some (fullDisk, .create none) }
    replica.engine.lastLsn = 1 ∧
      replica.Spares (replica.applyReplicatedRecord record faults).2 := by
  intro replica record faults
  have hlast : replica.engine.lastLsn = 1 := by decide +kernel
  have hfull : replica.Overfills record := by decide +kernel
  have hfails : (replica.applyReplicatedRecord record faults).1 = .error fullDisk := by
    decide +kernel
  clear_value replica
  exact ⟨hlast, (rejected_record_iff (Prod.ext hfails rfl)).mpr
    (.inr (.inr (.inr ⟨hfull, .inr ⟨fullDisk, .create none, rfl, fun _ h => (nomatch h)⟩⟩)))⟩

/-- The second put of the first record fails: the first one is visible, the log has the record and
    the last LSN is 0. When the primary sends the record again, the log has it twice. -/
theorem record_logged_twice :
    let record : WalRecord := ⟨1, [.put [1] [10], .put [2] [20]], 0, 0⟩
    let first := emptyReplica.applyReplicatedRecord record
      { mutations := [(none, none), (some fullDisk, none)] }
    let second := first.2.applyReplicatedRecord record {}
    first.1 = .error fullDisk ∧ first.2.engine.poisoned = false ∧ first.2.engine.lastLsn = 0 ∧
      first.2.engine.treeGet [1] = .ok (some [10]) ∧ second.1 = .ok 1 ∧
      second.2.engine.wal = [record, record] := by
  decide +kernel

end Vyrn
