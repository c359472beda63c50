import Vyrn.Wal.Log

/-!
# Rotating a segment

A rotation creates the successor, writes its 32-byte header, makes both durable and switches the
writer. Cut before the file exists it leaves the directory as it was, and cut behind the header an
empty successor that opening accepts. In between, reading the short header back fails before the
segment behind it is replayed. Main results: `rotation_recovers`, `runway_keeps_records`.
-/

namespace Vyrn

open ByteString List Transition

namespace Wal

namespace Log

/-! ## A rotation cut anywhere -/

section Cut

variable {log : Log}

theorem foldl_write (log : Log) (file header : Bytes) :
    (header.map Effect.write).foldl Rotation.run ⟨log, some file⟩ = ⟨log, some (file ++ header)⟩ := by
  induction header generalizing file with
  | nil => simp
  | cons byte header ih =>
    rw [map_cons, foldl_cons]
    refine (ih (file ++ [byte])).trans ?_
    rw [append_assoc]
    rfl

/-- The effects behind the header leave the successor in the directory. -/
theorem foldl_switch (log : Log) (file : Bytes) (count : Nat) :
    (([Effect.sync, .syncDirectory, .switch].take count).foldl Rotation.run
        ⟨log, some file⟩).directory = log.directory ++ [(log.segmentId + 1, file)] := by
  match count with
  | 0 | 1 | 2 => rfl
  | count + 3 =>
    rw [take_of_length_le (by simp)]
    simp [Rotation.run, Rotation.directory, directory]

/-- **CUT**: what the directory holds after some of the effects of a rotation. -/
theorem rotating_directory (log : Log) (count : Nat) :
    (log.rotating (count + 1)).directory = log.drainPendingWal.directory ++
      [(log.segmentId + 1, (segmentHeader (log.segmentId + 1) (log.lastLsn + 1)).take count)] := by
  rw [rotating, rotationEffects, append_assoc, singleton_append, take_succ_cons,
    foldl_cons, take_append, foldl_append, ← map_take,
    show Rotation.run ⟨log.drainPendingWal, none⟩ .create = ⟨log.drainPendingWal, some []⟩ from rfl,
    foldl_write, foldl_switch]
  rfl

/-- What a whole rotation leaves. -/
theorem rotateSegment_ok {after : Log} (h : log.rotateSegment = .ok after) :
    log.segmentId + 1 < 256 ^ 8 ∧
      after = { log.drainPendingWal with
        sealed := log.drainPendingWal.directory
        segmentId := log.segmentId + 1
        writer :=
          { log.drainPendingWal.writer with
            file := segmentHeader (log.segmentId + 1) (log.lastLsn + 1)
            offset := segmentHeaderLen
            zeroed := segmentHeaderLen }
        walLen := segmentHeaderLen } := by
  rw [rotateSegment] at h
  split_ifs at h with hid
  refine ⟨not_le.mp hid, ?_⟩
  rw [← Except.ok.inj h, rotating, take_length, rotationEffects, append_assoc,
    singleton_append, foldl_cons, foldl_append,
    show Rotation.run ⟨log.drainPendingWal, none⟩ .create = ⟨log.drainPendingWal, some []⟩ from rfl,
    foldl_write, nil_append]
  rfl

end Cut

/-! ## What every step keeps -/

section Steps

variable {log after : Log} {retired : List WalRecord} {segments : List Segment} {active : Segment}
  {operations : List BatchOperation} {len root : Nat}

section

variable (h : Holds log retired segments active)
include h

theorem Holds.length :
    retired.length + (recordsOf (segments ++ [active])).length + log.pending.length =
      log.lastLsn := by
  rw [← h.lastLsn, h.records, length_append, length_append]

/-- A successor with a whole header, behind a drained log. -/
theorem Holds.chained_successor (hdrained : log.pending = []) (hid : log.segmentId + 1 < 256 ^ 8)
    (hlsn : log.lastLsn + 1 < 256 ^ 8) :
    ∃ id, Chained id (retired.length + 1)
      (segments ++ [active] ++ [⟨log.segmentId + 1, log.lastLsn + 1, [], 0⟩]) := by
  obtain ⟨id, hchained⟩ := h.chained
  have hlength := h.length
  rw [hdrained, length_nil] at hlength
  obtain ⟨-, hactive, -⟩ := chained_append.mp hchained
  refine ⟨id, chained_append.mpr ⟨hchained, ?_, ?_, ⟨hid, hlsn, trivial, ?_⟩, trivial⟩⟩
  · show log.segmentId + 1 = _
    rw [h.segmentId, hactive, length_append, length_singleton]
    omega
  · show log.lastLsn + 1 = _
    omega
  · exact forall_mem_nil _

theorem Holds.rotate (hlsn : log.lastLsn + 1 < 256 ^ 8) (hrotate : log.rotateSegment = .ok after) :
    Sound after := by
  obtain ⟨hid, rfl⟩ := rotateSegment_ok hrotate
  obtain ⟨runway, hdrained⟩ := h.drain
  refine ⟨retired, _, _, hdrained.chained_successor rfl hid hlsn, ?_, rfl, ?_, ?_, ?_, ?_, h.lsns,
    h.lastLsn, h.retired, h.manifest, fun _ => rfl⟩
  · rw [files_concat, ← hdrained.sealed, ← hdrained.file, ← hdrained.segmentId]
    rfl
  · simp [Segment.file, Segment.body, frames, zeros]
    rfl
  · refine ⟨⟨0, ?_, ?_⟩, ?_, le_rfl⟩
    · simp [Segment.body, frames, zeros]
      rfl
    · simp [length_body, frames]
    · simp [length_body, frames]
  · exact forall_mem_nil _
  · refine hdrained.records.trans ?_
    rw [recordsOf_concat (_ ++ _), append_nil]

/-- A record behind all others, written or kept in memory. -/
theorem Holds.push {record : WalRecord} (hrecord : Encodable record)
    (hlsn : record.lsn = log.lastLsn + 1) (walLen : Nat) :
    Sound { log with
      writer := if log.buffered then log.writer else log.writer.append (frame record)
      pending := if log.buffered then log.pending ++ [record] else log.pending
      walLen := walLen
      lastLsn := record.lsn
      records := log.records ++ [record] } := by
  have hlength := h.length
  have hlsns : Consecutive 1 (log.records ++ [record]) := by
    refine consecutive_append.mpr ⟨h.lsns, ?_, trivial⟩
    rw [hlsn, h.lastLsn]
    omega
  have hlast : (log.records ++ [record]).length = record.lsn := by
    rw [length_append, h.lastLsn, hlsn, length_singleton]
  have hmanifest : log.manifest.lsn ≤ record.lsn := by
    have := h.manifest
    omega
  cases hbuffered : log.buffered with
  | true =>
    refine ⟨retired, segments, active, h.chained, h.sealed, h.segmentId, h.file, h.lays, ?_, ?_,
      hlsns, hlast, h.retired, hmanifest, nofun⟩
    · exact forall_mem_append.mpr ⟨h.pending, forall_mem_singleton.mpr hrecord⟩
    · show log.records ++ [record] = _
      rw [h.records, append_assoc]
      rfl
  | false =>
    have hnone := h.eager hbuffered
    rw [hnone, length_nil] at hlength
    obtain ⟨n, hfile, -⟩ := (h.lays.append (frame record)).file
    have hbody : active.body ++ frame record =
        Segment.body { active with records := active.records ++ [record] } := by
      rw [Segment.body, Segment.body, frames_append, append_assoc, frames_cons]
      simp [frames]
    refine ⟨retired, segments, { active with records := active.records ++ [record], runway := n },
      h.sound_concat (forall_mem_singleton.mpr hrecord) ⟨by omega, trivial⟩ n, h.sealed,
      h.segmentId, ?_, ?_, h.pending, ?_, hlsns, hlast, h.retired, hmanifest, fun _ => hnone⟩
    · refine hfile.trans ?_
      rw [hbody]
      rfl
    · show (log.writer.append (frame record)).Lays _
      rw [show Segment.body { active with records := active.records ++ [record], runway := n } =
        active.body ++ frame record from hbody.symm]
      exact h.lays.append (frame record)
    · show log.records ++ [record] = _ ++ log.pending
      rw [h.records, hnone]
      simp only [recordsOf_concat, append_assoc, append_nil]

end

theorem appendBatch_ok (h : log.appendBatch operations root len = .ok after) :
    log.lastLsn + 1 < 256 ^ 8 ∧ ∃ bytes turned,
      encodeRecord ⟨log.lastLsn + 1, operations, root, len⟩ = .ok bytes ∧
      (turned = log ∨ log.rotateSegment = .ok turned) ∧
      after = { turned with
        writer := if turned.buffered then turned.writer else turned.writer.append bytes
        pending :=
          if turned.buffered then turned.pending ++ [⟨log.lastLsn + 1, operations, root, len⟩]
          else turned.pending
        walLen := turned.walLen + bytes.length
        lastLsn := log.lastLsn + 1
        records := turned.records ++ [⟨log.lastLsn + 1, operations, root, len⟩] } := by
  rw [appendBatch] at h
  obtain ⟨hnext, h⟩ := guard_ok.mp h
  obtain ⟨bytes, hbytes, hrest⟩ := bind_eq_ok.mp h
  obtain ⟨turned, hturned, hafter⟩ := bind_eq_ok.mp hrest
  refine ⟨not_le.mp hnext, bytes, turned, hbytes, ?_, (Except.ok.inj hafter).symm⟩
  rw [makeRoom] at hturned
  split_ifs at hturned
  · exact .inr hturned
  · exact .inl (Except.ok.inj hturned).symm

theorem Sound.commit (h : Sound log) (hsome : operations ≠ [])
    (hvalid : ∀ operation ∈ operations, operation.Valid) (hroot : root < 256 ^ 8)
    (hlen : len < 256 ^ 8) (hcommit : log.appendBatch operations root len = .ok after) :
    Sound after := by
  obtain ⟨retired, segments, active, h⟩ := h
  obtain ⟨hlsn, bytes, turned, hbytes, hturned, rfl⟩ := appendBatch_ok hcommit
  obtain ⟨rfl, htotal⟩ := encodeRecord_ok hbytes
  have hrecord : Encodable ⟨log.lastLsn + 1, operations, root, len⟩ :=
    ⟨hlsn, hroot, hlen, hsome, hvalid, htotal⟩
  rcases hturned with rfl | hrotated
  · exact h.push hrecord rfl _
  · obtain ⟨retired, segments, active, hturned⟩ := h.rotate hlsn hrotated
    have hsame : turned.lastLsn = log.lastLsn := by
      obtain ⟨-, rfl⟩ := rotateSegment_ok hrotated
      rfl
    exact hturned.push hrecord (by rw [hsame]) _

/-- Of segments in the order of their ids, those above a mark are the last ones. -/
theorem chained_filter (keep : Nat → Bool) (hkeep : ∀ id, keep id → keep (id + 1)) {id lsn : Nat}
    {segments : List Segment} (h : Chained id lsn segments) :
    ∃ front rest, segments = front ++ rest ∧
      (files segments).filter (fun segment => keep segment.1) = files rest := by
  have hall : ∀ {segments : List Segment} {id lsn : Nat}, keep id → Chained id lsn segments →
      (files segments).filter (fun segment => keep segment.1) = files segments := by
    intro segments
    induction segments with
    | nil => exact fun _ _ => rfl
    | cons segment segments ih =>
      rintro _ _ hid ⟨rfl, -, -, hrest⟩
      rw [files_cons, filter_cons_of_pos (by exact hid), ih (hkeep _ hid) hrest]
  induction segments generalizing id lsn with
  | nil => exact ⟨[], [], rfl, rfl⟩
  | cons segment segments ih =>
    by_cases hid : keep id
    · exact ⟨[], segment :: segments, rfl, hall hid h⟩
    · obtain ⟨rfl, -, -, hrest⟩ := h
      obtain ⟨front, rest, rfl, hfilter⟩ := ih hrest
      refine ⟨segment :: front, rest, rfl, ?_⟩
      rw [files_cons, filter_cons_of_neg (by exact hid), hfilter]

section

variable (h : Holds log retired segments active)
include h

/-- With the manifest at the end of the log, sealed segments may go. -/
theorem Holds.retire (hpublished : log.manifest.lsn = log.lastLsn) (archivedThrough : Option Nat) :
    Sound { log with
      sealed := log.sealed.filter
        (fun segment => archivedThrough.any (fun id => id < segment.1)) } := by
  obtain ⟨id, hchained⟩ := h.chained
  have hlength := h.length
  have hkeep : ∀ id, archivedThrough.any (fun mark => mark < id) →
      archivedThrough.any (fun mark => mark < id + 1) := by
    intro id
    cases archivedThrough with
    | none => exact nofun
    | some =>
      simp only [Option.any_some, decide_eq_true_eq]
      omega
  obtain ⟨front, rest, rfl, hfilter⟩ := chained_filter
    (fun id => archivedThrough.any (fun mark => mark < id)) hkeep (chained_append.mp hchained).1
  have hrecords : recordsOf (front ++ rest ++ [active]) =
      recordsOf front ++ recordsOf (rest ++ [active]) := by
    rw [append_assoc]
    exact flatMap_append
  refine ⟨retired ++ recordsOf front, rest, active, ⟨id + front.length, ?_⟩, ?_, h.segmentId,
    h.file, h.lays, h.pending, ?_, h.lsns, h.lastLsn, ?_, h.manifest, h.eager⟩
  · rw [append_assoc] at hchained
    have hrest := (chained_append.mp hchained).2
    rwa [length_append, Nat.add_right_comm]
  · show filter _ log.sealed = _
    rw [h.sealed]
    exact hfilter
  · show log.records = _
    rw [h.records, hrecords, append_assoc]
    simp only [append_assoc]
  · show (retired ++ recordsOf front).length ≤ log.manifest.lsn
    rw [hrecords, length_append] at hlength
    rw [length_append]
    omega

theorem Holds.directory : log.directory = files (segments ++ [active]) := by
  rw [Log.directory, files_concat, h.sealed, h.segmentId, h.file]

section

variable (hdrained : log.pending = [])
include hdrained

/-- What opening finds behind a drained log. -/
theorem Holds.open :
    openLog log.manifest log.directory =
      .ok ⟨(Recovered.mk log.manifest []).extend (recordsOf (segments ++ [active])),
        files segments, active.id, active.file, active.body.length⟩ := by
  obtain ⟨id, hchained⟩ := h.chained
  have hlength := h.length
  have hretired := h.retired
  have hmanifest := h.manifest
  rw [hdrained, length_nil] at hlength
  rw [h.directory]
  exact openLog_chained log.manifest hchained (by omega) (by omega)

/-- The commits beyond the manifest, as recovery keeps them. -/
def recovered (log : Log) : Recovered :=
  let redo := log.records.filter (fun record => log.manifest.lsn < record.lsn)
  ⟨(redo.getLast?.map stateOf).getD log.manifest, redo⟩

/-- Recovery keeps every commit beyond the manifest, whatever was retired. -/
theorem Holds.recovered :
    (Recovered.mk log.manifest []).extend (recordsOf (segments ++ [active])) = log.recovered := by
  have hall := (Recovered.mk log.manifest []).extend_eq h.lsns.pairwise
  have hrecords := h.records
  rw [hdrained, append_nil] at hrecords
  have hseen : (Recovered.mk log.manifest []).extend retired = ⟨log.manifest, []⟩ := by
    refine Recovered.extend_seen (fun record hrecord => ?_)
    have hlsns := h.lsns
    rw [h.records, append_assoc] at hlsns
    have hbounds := (consecutive_append.mp hlsns).1.bounds record hrecord
    have hretired := h.retired
    show record.lsn ≤ log.manifest.lsn
    omega
  rw [← hseen, ← Recovered.extend_append, ← hrecords, hall]
  rfl

theorem Holds.recovered_lsn : log.recovered.state.lsn = log.lastLsn := by
  obtain ⟨id, hchained⟩ := h.chained
  have hlength := h.length
  have hretired := h.retired
  have hmanifest := h.manifest
  rw [hdrained, length_nil] at hlength
  have hlsn := (Recovered.mk log.manifest []).extend_lsn hchained.lsns
    (by show retired.length + 1 ≤ log.manifest.lsn + 1; omega)
  rw [h.recovered hdrained] at hlsn
  dsimp only at hlsn
  omega

end

theorem Holds.reopen (hreopen : act log .reopen = some after) : Sound after := by
  obtain ⟨runway, hdrained⟩ := h.drain
  have hopen := hdrained.open rfl
  have hlsn := hdrained.recovered_lsn rfl
  rw [hdrained.recovered rfl] at hopen
  simp only [act, show log.manifest = log.drainPendingWal.manifest from rfl, hopen,
    Option.some.injEq] at hreopen
  subst hreopen
  refine ⟨retired, segments, _, hdrained.chained, rfl, rfl, rfl, ⟨⟨runway, rfl, ?_⟩, rfl, le_rfl⟩,
    hdrained.pending, hdrained.records, h.lsns, h.lastLsn.trans hlsn.symm, h.retired, ?_,
    fun _ => rfl⟩
  · exact Nat.le_add_right _ _
  · exact h.manifest.trans hlsn.ge

end

theorem created_sound (segmentSize : Nat) (buffered : Bool) :
    Sound (created segmentSize buffered) := by
  refine ⟨[], [], ⟨1, 1, [], 0⟩, ⟨1, rfl, rfl, ⟨by decide, by decide, trivial, ?_⟩, trivial⟩, rfl,
    rfl, ?_, ⟨⟨0, ?_, ?_⟩, ?_, le_rfl⟩, ?_, rfl, trivial, rfl, le_rfl, le_rfl, fun _ => rfl⟩
  · exact forall_mem_nil _
  · simp [created, Writer.new, Segment.file, Segment.body, frames, zeros]
  · simp [created, Writer.new, Segment.body, frames, zeros]
  · simp [created, Writer.new, length_body, frames]
  · simp [created, Writer.new, length_body, frames]
  · exact forall_mem_nil _

/-- LSNs are not used up. -/
def Numbered (log : Log) (_ : Event) : Prop := log.lastLsn + 1 < 256 ^ 8

instance (log : Log) (event : Event) : Decidable (Numbered log event) :=
  inferInstanceAs (Decidable (_ < _))

/-- **STEP**: every step keeps the log sound. -/
theorem Sound.step {event : Event} (h : Sound log) (hnumbered : Numbered log event)
    (hstep : Step log event after) : Sound after := by
  cases event with
  | commit =>
    rw [Step, act] at hstep
    split_ifs at hstep with hguard
    obtain ⟨hsome, hvalid, hroot, hlen⟩ := hguard
    exact h.commit hsome hvalid hroot hlen (toOption_eq_some hstep)
  | drain =>
    obtain ⟨retired, segments, active, h⟩ := h
    cases hstep
    obtain ⟨runway, hdrained⟩ := h.drain
    exact ⟨retired, segments, _, hdrained⟩
  | rotate =>
    obtain ⟨retired, segments, active, h⟩ := h
    exact h.rotate hnumbered (toOption_eq_some hstep)
  | publish =>
    obtain ⟨retired, segments, active, h⟩ := h
    cases hstep
    obtain ⟨runway, hdrained⟩ := h.drain
    refine ⟨retired, segments, _, hdrained.chained, hdrained.sealed, hdrained.segmentId,
      hdrained.file, hdrained.lays, hdrained.pending, hdrained.records, h.lsns, h.lastLsn, ?_,
      le_rfl, hdrained.eager⟩
    exact h.retired.trans h.manifest
  | retire archivedThrough =>
    obtain ⟨retired, segments, active, h⟩ := h
    rw [Step, act] at hstep
    split_ifs at hstep with hpublished
    cases hstep
    exact h.retire hpublished archivedThrough
  | reopen =>
    obtain ⟨retired, segments, active, h⟩ := h
    exact h.reopen hstep

end Steps

/-! ## Opening after a cut -/

section Opening

variable {log : Log} {pages : Pages} {values : Bytes} {tree : PageTree}

/-- A successor without a whole header: nothing opens. -/
theorem Sound.rotating_short (h : Sound log) (count : Nat) (hshort : count < segmentHeaderLen)
    (pages : Pages) (values : Bytes) :
    ∃ error, openEngine log.manifest (log.rotating (count + 1)).directory pages values =
      .error error := by
  obtain ⟨retired, segments, active, h⟩ := h
  obtain ⟨runway, hdrained⟩ := h.drain
  obtain ⟨id, hchained⟩ := hdrained.chained
  have hretired := h.retired
  have hreplay := replaySegments_short ⟨log.manifest, []⟩ hchained
    (by show retired.length + 1 ≤ log.manifest.lsn + 1; omega) (log.segmentId + 1)
    ((segmentHeader (log.segmentId + 1) (log.lastLsn + 1)).take count)
    (by rw [length_take]; omega)
  rw [openEngine, openLog, rotating_directory, hdrained.directory]
  rw [listSegments]
  split_ifs with hgap
  · rw [ok_bind, hreplay]
    exact ⟨_, rfl⟩
  · exact ⟨_, rfl⟩

/-- No successor, or one with a whole header: every commit is recovered. -/
theorem Sound.rotating_whole (h : Sound log) (hid : log.segmentId + 1 < 256 ^ 8)
    (hlsn : log.lastLsn + 1 < 256 ^ 8) {count : Nat} (hwhole : count = 0 ∨ segmentHeaderLen < count) :
    ∃ opened, openLog log.manifest (log.rotating count).directory = .ok opened ∧
      opened.recovered = log.recovered := by
  obtain ⟨retired, segments, active, h⟩ := h
  obtain ⟨runway, hdrained⟩ := h.drain
  have hrecovered := hdrained.recovered rfl
  rcases hwhole with rfl | _
  · have hdirectory : (log.rotating 0).directory = log.drainPendingWal.directory :=
      append_nil _
    rw [hdirectory]
    exact ⟨_, hdrained.open rfl, hrecovered⟩
  · obtain ⟨rest, rfl⟩ : ∃ rest, count = rest + 1 := ⟨count - 1, by omega⟩
    obtain ⟨id, hchained⟩ := hdrained.chained_successor rfl hid hlsn
    have hretired := h.retired
    have hmanifest := h.manifest
    have hlength := hdrained.length
    rw [show log.drainPendingWal.pending = [] from rfl, length_nil,
      show log.drainPendingWal.lastLsn = log.lastLsn from rfl] at hlength
    have hopen := openLog_chained log.manifest hchained (by omega)
      (by rw [recordsOf_concat, append_nil]; omega)
    rw [recordsOf_concat, append_nil] at hopen
    have hheader : (segmentHeader (log.segmentId + 1) (log.lastLsn + 1)).take rest =
        Segment.file ⟨log.segmentId + 1, log.lastLsn + 1, [], 0⟩ := by
      rw [take_of_length_le (by rw [length_segmentHeader]; omega)]
      simp [Segment.file, Segment.body, frames, zeros]
    rw [rotating_directory, hheader, hdrained.directory]
    rw [files_concat] at hopen
    exact ⟨_, hopen, hrecovered⟩

/-- **ROTATION**: cut anywhere, a rotation leaves a directory that opens with every commit, exactly
    when the successor is not there or has its whole header. -/
theorem rotation_recovers {segmentSize : Nat} {buffered : Bool} {events : List Event}
    (hrun : Run Step Numbered (created segmentSize buffered) events log)
    (hid : log.segmentId + 1 < 256 ^ 8) (hlsn : log.lastLsn + 1 < 256 ^ 8)
    (htree : recoverTree pages values log.manifest log.recovered = .ok tree) (count : Nat) :
    (∃ opened, openEngine log.manifest (log.rotating count).directory pages values =
        .ok (opened, tree) ∧ opened.recovered = log.recovered) ↔
      count = 0 ∨ segmentHeaderLen < count := by
  have hsound : Sound log :=
    hrun.invariant (fun h hnumbered hstep => h.step hnumbered hstep)
      (created_sound segmentSize buffered)
  constructor
  · rintro ⟨opened, hopen, -⟩
    by_contra hcut
    obtain ⟨short, rfl⟩ : ∃ short, count = short + 1 := ⟨count - 1, by omega⟩
    obtain ⟨error, herror⟩ := hsound.rotating_short short (by omega) pages values
    cases hopen.symm.trans herror
  · intro hwhole
    obtain ⟨opened, hopen, hrecovered⟩ := hsound.rotating_whole hid hlsn hwhole
    refine ⟨opened, ?_, hrecovered⟩
    rw [openEngine, hopen, ok_bind, hrecovered, htree]
    rfl

/-- The log of a new database after one put. -/
def onePut : List Event := [.commit [.put [107] [118]] 1 1]

/-- The put's pages. -/
def putTree : Except Error PageTree := (⟨[.super], [], 0, 0⟩ : PageTree).applyPut [107] [118] 1

/-- The header whole, the writer not switched: the put is recovered. -/
theorem rotation_recovers_one_put :
    ∃ log tree opened, Run Step Numbered (created 4096 false) onePut log ∧
      putTree = .ok tree ∧
      openEngine log.manifest (log.rotating 34).directory tree.pages tree.values =
        .ok (opened, tree) ∧ opened.recovered = log.recovered := by
  obtain ⟨log, hrun, hid, hlsn, hmanifest, hrecovered⟩ :
      ∃ log, Run Step Numbered (created 4096 false) onePut log ∧
        log.segmentId + 1 < 256 ^ 8 ∧ log.lastLsn + 1 < 256 ^ 8 ∧ log.manifest = ⟨0, 0, 0⟩ ∧
        log.recovered = ⟨⟨1, 1, 1⟩, [⟨1, [.put [107] [118]], 1, 1⟩]⟩ :=
    exists_run act id (by decide +kernel)
  obtain ⟨tree, hput⟩ : ∃ tree, putTree = .ok tree := ⟨_, rfl⟩
  have htree : recoverTree tree.pages tree.values log.manifest log.recovered = .ok tree := by
    rw [hmanifest, hrecovered]
    cases hput
    decide +kernel
  obtain ⟨opened, hopen, hsame⟩ := (rotation_recovers hrun hid hlsn htree 34).mpr (by decide)
  exact ⟨log, tree, opened, hrun, hput, hopen, hsame⟩

/-- **A SHORT HEADER**: once the successor exists without its header, the database does not open. -/
theorem rotation_bricks :
    ∃ log, Run Step Numbered (created 4096 false) onePut log ∧ log.records.length = 1 ∧
      ∀ pages values, ∃ error,
        openEngine log.manifest (log.rotating 1).directory pages values = .error error := by
  refine exists_run_of act id (p := fun log => log.records.length = 1)
    (by decide +kernel) (fun log hrun hone => ?_)
  have hsound : Sound log :=
    hrun.invariant (fun h hnumbered hstep => h.step hnumbered hstep) (created_sound 4096 false)
  exact ⟨hone, fun pages values => hsound.rotating_short 0 (by decide) pages values⟩

end Opening

end Log

/-! ## The writer over whole runs -/

def Writer.rotate (writer : Writer) (file : Bytes) (offset : Nat) : Writer :=
  { writer with
    file := file
    offset := offset
    zeroed := offset }

/-- A writer, the segment it appends to and the records it has appended there, whatever their
    bytes. -/
structure Appending where
  writer : Writer
  segmentId : Nat
  firstLsn : Nat
  records : List Bytes

/-- What a writer does, and the `reserve` of an append by itself. A reopening finds the records and
    what replay kept of the runway. -/
inductive WriterEvent where
  | reserve (wanted : Nat)
  | append (record : Bytes)
  | reopen (kept segmentSize : Nat)
  | rotate (segmentId firstLsn : Nat)

namespace Appending

variable {appending : Appending}

def body (appending : Appending) : Bytes :=
  segmentHeader appending.segmentId appending.firstLsn ++ appending.records.flatten

def created (segmentSize segmentId firstLsn : Nat) : Appending :=
  ⟨.new (segmentHeader segmentId firstLsn) segmentHeaderLen segmentSize, segmentId, firstLsn, []⟩

def act (appending : Appending) : WriterEvent → Appending
  | .reserve wanted => { appending with writer := appending.writer.reserve wanted }
  | .append record =>
    { appending with
      writer := appending.writer.append record
      records := appending.records ++ [record] }
  | .reopen kept segmentSize =>
    let length := appending.body.length
    { appending with
      writer := .new (appending.writer.file.take (length + kept)) length segmentSize }
  | .rotate segmentId firstLsn =>
    ⟨appending.writer.rotate (segmentHeader segmentId firstLsn) segmentHeaderLen, segmentId,
      firstLsn, []⟩

/-- A segment that has only its header. -/
theorem lays_header {writer : Writer} {segmentId firstLsn : Nat}
    (hfile : writer.file = segmentHeader segmentId firstLsn)
    (hoffset : writer.offset = segmentHeaderLen) (hzeroed : writer.zeroed = segmentHeaderLen) :
    writer.Lays (body ⟨writer, segmentId, firstLsn, []⟩) := by
  have hbody : body ⟨writer, segmentId, firstLsn, []⟩ = segmentHeader segmentId firstLsn :=
    append_nil _
  have hlength := length_segmentHeader segmentId firstLsn
  rw [hbody]
  exact ⟨⟨0, by rw [hfile, zeros, replicate_zero, append_nil], by omega⟩, by omega, by omega⟩

/-- **STEP**: the writer stands behind the records, with zeros ahead of it. -/
theorem lays_act (h : appending.writer.Lays appending.body) (event : WriterEvent) :
    (appending.act event).writer.Lays (appending.act event).body := by
  cases event with
  | reserve wanted => exact h.reserve wanted
  | append record =>
    have hbody : (appending.act (.append record)).body = appending.body ++ record := by
      simp [act, body]
    rw [hbody]
    exact h.append record
  | reopen kept segmentSize =>
    obtain ⟨⟨n, hfile, -⟩, -, -⟩ := h
    refine Writer.new_lays _ (min kept n) ?_ segmentSize
    rw [hfile, take_length_add_append, zeros, take_replicate]
    rfl
  | rotate => exact lays_header rfl rfl rfl

/-- **RUNWAY**: after any appends, reopenings and rotations the file is the header, the records in
    their order and zeros, and the next fill of zeros begins behind the records. -/
theorem runway_keeps_records (segmentSize segmentId firstLsn : Nat) (events : List WriterEvent) :
    let appending := events.foldl act (created segmentSize segmentId firstLsn)
    let writer := appending.writer
    writer.offset ≤ writer.zeroed ∧ writer.offset = appending.body.length ∧
      writer.file.take writer.offset = appending.body ∧
      (∀ byte ∈ writer.file.drop writer.offset, byte = 0) ∧
      ∀ wanted, writer.reserve wanted = writer ∨
        ∃ fill, writer.reserve wanted =
          { writer with
            file := writeAllAt writer.file (zeros fill) writer.zeroed
            zeroed := writer.zeroed + fill } := by
  intro appending writer
  obtain ⟨⟨n, hfile, -⟩, hoffset, hahead⟩ : writer.Lays appending.body :=
    foldlRecOn events act (motive := fun appending => appending.writer.Lays appending.body)
      (lays_header rfl rfl rfl) (fun _ h event _ => lays_act h event)
  refine ⟨hahead, hoffset, ?_, ?_, fun wanted => ?_⟩
  · rw [hfile, hoffset, take_left]
  · rw [hfile, hoffset, drop_left]
    exact fun byte hbyte => eq_of_mem_replicate hbyte
  · rw [Writer.reserve]
    split_ifs
    · exact .inl rfl
    · exact .inr ⟨_, rfl⟩

end Appending

end Wal

end Vyrn
