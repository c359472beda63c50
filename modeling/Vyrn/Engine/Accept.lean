import Vyrn.Engine.Checkpoint

/-!
# Which batches the engine takes

`writeBatch` checks each operation against its own limits. What else can refuse a batch is what the
engine makes of it: with the change log on one more value that holds all its keys and values, and
always one log record whose lengths have 32 bits. **`applyBatch_ok_iff`**: a valid batch is taken
exactly when its payload fits, the sequence number does, and the keys it asks for can be read.
-/

namespace Vyrn

open SortedMap List ByteString

variable {operation : BatchOperation} {revision : Nat} {operations : List BatchOperation}

/-! ## The change record of a batch of user operations -/

/-- An operation as an entry of the change record. -/
def BatchOperation.change (operation : BatchOperation) : Bytes × Option Bytes :=
  (operation.key, operation.value?)

/-- **CHANGE RECORD**: the record of a commit is four bytes longer than its payload. -/
theorem encodeBatch_length (operations : List BatchOperation) :
    (encodeBatch (operations.map BatchOperation.change)).length = 4 + payloadLen operations := by
  rw [encodeBatch, length_append, length_toBE]
  refine congrArg (4 + ·) ?_
  induction operations with
  | nil => rfl
  | cons operation rest ih =>
    rw [map_cons, flatMap_cons, length_append, ih, payloadLen_cons]
    have hvalue : operation.valueLen = (operation.value?.getD []).length := by
      rw [BatchOperation.valueLen]
      cases operation.value? with
      | none => rfl
      | some => rfl
    simp only [length_cons, length_append, length_toBE, hvalue, BatchOperation.change]
    rw [opHeaderLen]
    omega

theorem effective_append {more : List BatchOperation} :
    ∀ {rows : Rows},
      effective revision rows (operations ++ more)
        = effective revision rows operations
            ++ effective revision (replayAll revision rows operations) more := by
  induction operations with
  | nil => exact fun {rows} => rfl
  | cons operation rest ih =>
    intro rows
    rw [cons_append, effective, effective, ih, ih, replayAll, replayAll, replayAll, foldl_cons]
    split_ifs with heffect
    · rfl
    · rw [replayed_of_no_effect (Bool.eq_false_iff.mpr heffect)]

theorem lookup_replayed_self {rows : Rows} (huser : isInternal operation.key = false) :
    (lookup operation.key (replayed revision rows operation)).isSome
      = operation.value?.isSome := by
  have hvalue := @valueIn_replayed revision operation.key rows (tombstoneKey_ne_user huser) operation
  rw [BatchOperation.leaves, if_pos rfl] at hvalue
  rw [← hvalue, valueIn, Option.isSome_map]

/-- **PUBLISHED**: the published changes of user operations are those with an effect. -/
theorem publishedEntries_eq {present : Bytes → Except Error Bool} {base : Rows} {live : Presence}
    {rows : Rows}
    (hops : ∀ operation ∈ operations, isInternal operation.key = false ∧
      present operation.key = .ok (lookup operation.key base).isSome)
    (hlive : ∀ key, isInternal key = false →
      (live key).getD (lookup key base).isSome = (lookup key rows).isSome) :
    publishedEntries present live operations
      = .ok ((effective revision rows operations).map BatchOperation.change) := by
  induction operations generalizing live rows with
  | nil => rfl
  | cons operation rest ih =>
    obtain ⟨huser, hpresent⟩ := hops operation mem_cons_self
    have hrest := fun o ho => hops o (mem_cons_of_mem operation ho)
    have hpublished : isPublishedKey operation.key = true := by
      rw [isPublishedKey, huser]
      rfl
    -- what the batch knows of the keys follows the map
    have hnext : ∀ key, isInternal key = false →
        ((live.set operation.key operation.value?.isSome) key).getD
            (lookup key base).isSome
          = (lookup key (replayed revision rows operation)).isSome := by
      intro key hkey
      rw [Presence.set]
      split_ifs with heq
      · rw [heq, lookup_replayed_self huser]
        rfl
      · rw [(replayed_other hkey (fromCaller_of_user huser) (Ne.symm heq)).1]
        exact hlive key hkey
    cases operation with
    | put key =>
      have hentries : publishedEntries present (live.set key true) rest = _ := ih hrest hnext
      have hpub : isPublishedKey key = true := hpublished
      rw [publishedEntries, hentries, ok_bind, effective, HasEffect, if_pos rfl, hpub]
      rfl
    | delete key =>
      have hkey := hlive key huser
      have hstep : publishedEntries present live (.delete key :: rest)
          = (publishedEntries present (live.set key false) rest >>= fun entries =>
              .ok (if (lookup key rows).isSome && isPublishedKey key then
                (key, none) :: entries else entries)) := by
        rw [publishedEntries]
        cases hl : live key with
        | none =>
          rw [hl] at hkey
          rw [show present key = _ from hpresent, ok_bind, ← hkey]
          rfl
        | some =>
          rw [hl] at hkey
          rw [← hkey]
          rfl
      have hentries : publishedEntries present (live.set key false) rest = _ := ih hrest hnext
      rw [hstep, hentries, ok_bind, effective, HasEffect]
      cases heffect : (lookup key rows).isSome with
      | true =>
        have hpub : isPublishedKey key = true := hpublished
        rw [if_pos rfl, hpub]
        rfl
      | false =>
        have hno : HasEffect rows (.delete key) = false := heffect
        rw [replayed_of_no_effect hno]
        rfl

/-- A batch with the record of its changes behind it, when it changes anything and the change log
    is on. -/
def Engine.withRecord (engine : Engine) (rows : Rows)
    (operations : List BatchOperation) : List BatchOperation :=
  let changes := effective (engine.lastLsn + 1) rows operations
  if engine.changeLogEnabled = false ∨ changes = [] then operations
  else operations ++ [.put (changeLogKey (engine.lastLsn + 1))
    (encodeBatch (changes.map BatchOperation.change))]

section Batch

variable {ordered : Bool} {engine : Engine} {levels : Nat} {rows : Rows}
  {operations : List BatchOperation} {last : BatchOperation} {error : Error}

theorem withRecord_cases (engine : Engine) (rows : Rows) (operations : List BatchOperation) :
    (engine.withRecord rows operations = operations ∧
        (engine.changeLogEnabled = false ∨
          effective (engine.lastLsn + 1) rows operations = [])) ∨
      (engine.changeLogEnabled = true ∧ engine.withRecord rows operations
        = operations ++ [.put (changeLogKey (engine.lastLsn + 1)) (encodeBatch
            ((effective (engine.lastLsn + 1) rows operations).map BatchOperation.change))]) := by
  rw [Engine.withRecord]
  split_ifs with hnone
  · exact .inl ⟨rfl, hnone⟩
  · rw [not_or, Bool.not_eq_false] at hnone
    exact .inr ⟨hnone.1, rfl⟩

theorem mem_withRecord (h : operation ∈ operations) :
    operation ∈ engine.withRecord rows operations := by
  rcases withRecord_cases engine rows operations with ⟨heq, _⟩ | ⟨_, heq⟩
  · rw [heq]
    exact h
  · rw [heq]
    exact mem_append_left _ h

/-- **CHANGE LOG**: of user operations whose keys can be read, the change log records the ones
    with an effect. -/
theorem withChangeLog_eq (h : Serves ordered engine levels rows)
    (hlsn : engine.lastLsn + 1 < 2 ^ 64)
    (huser : ∀ operation ∈ operations, isInternal operation.key = false)
    (hreach : Reaches levels engine.writeBack (operations.map BatchOperation.key)) :
    engine.withChangeLog operations
      = if engine.changeLogEnabled = true ∧
            2 ^ 32 ≤ (effective (engine.lastLsn + 1) rows operations).length then
          .error (.io "too many changes in one commit")
        else .ok (engine.withRecord rows operations) := by
  obtain ⟨treeRows, hden, hrows⟩ := h.holds
  rw [Engine.withChangeLog, Engine.withRecord]
  cases henabled : engine.changeLogEnabled with
  | false => rfl
  | true =>
    have hentries : publishedEntries (fun key => do
          let value ← engine.treeGet key
          return value.isSome) (fun _ => none) operations
        = .ok ((effective (engine.lastLsn + 1) rows operations).map BatchOperation.change) := by
      refine publishedEntries_eq (fun operation hop => ⟨huser operation hop, ?_⟩) (fun key _ => rfl)
      have hkey : Reaches levels engine.writeBack [operation.key] := by
        refine hreach.mono (fun key hkey => ?_)
        rw [mem_singleton.mp hkey]
        exact mem_map_of_mem hop
      rw [Engine.treeGet, mergedGet_ok hden (fun b hb => (h.buffered b hb).1) hkey, ok_bind,
        ← hrows]
      refine congrArg Except.ok ?_
      rw [Option.isSome_map]
    rw [nextLsn_ok hlsn, Bool.not_true, if_neg Bool.false_ne_true, ok_bind, hentries, ok_bind,
      length_map]
    by_cases hnil : effective (engine.lastLsn + 1) rows operations = []
    · rw [hnil]
      rfl
    · rw [if_neg (fun hmap => hnil (map_eq_nil_iff.mp hmap)),
        if_neg (show ¬ (true = false ∨ effective (engine.lastLsn + 1) rows operations = []) by
          simp [hnil])]
      simp only [true_and]
      rfl

/-! ## The condition -/

/-- What a batch of user operations needs besides valid operations: a sequence number, keys the
    engine can read, a payload that fits the change record when the change log is on and the log
    record when it is off. -/
structure HasRoom (engine : Engine) (levels : Nat) (rows : Rows)
    (operations : List BatchOperation) : Prop where
  lsn : engine.lastLsn + 1 < 2 ^ 64
  reaches : Reaches levels engine.writeBack
    (wantedKeys engine.tombstonesPossible (engine.withRecord rows operations))
  changes : engine.changeLogEnabled = true →
    4 + payloadLen (effective (engine.lastLsn + 1) rows operations) ≤ maxValueSize
  record : engine.changeLogEnabled = false →
    recordHeaderLen + payloadLen (effective (engine.lastLsn + 1) rows operations)
      + recordFooterLen < 2 ^ 32

theorem length_changeLogKey (sequence : Nat) : (changeLogKey sequence).length = 24 := by
  rw [changeLogKey, length_append, length_toBE]
  rfl

theorem changeLogKey_valid (sequence : Nat) : validateKey (changeLogKey sequence) = .ok () := by
  have hlen := length_changeLogKey sequence
  have hne : changeLogKey sequence ≠ [] := by
    intro hnil
    rw [hnil] at hlen
    cases hlen
  rw [validateKey, if_neg hne, if_neg (by rw [hlen]; decide)]

theorem changeRecord_valid_iff {sequence : Nat} {changes : List BatchOperation} :
    (BatchOperation.put (changeLogKey sequence)
        (encodeBatch (changes.map BatchOperation.change))).Valid ↔
      4 + payloadLen changes ≤ maxValueSize := by
  rw [BatchOperation.Valid, validateOperation, changeLogKey_valid, ok_bind, validateValue,
    encodeBatch_length]
  split_ifs with hlong
  · exact ⟨by rintro ⟨⟩, fun h => absurd h (not_le.mpr hlong)⟩
  · exact ⟨fun _ => not_lt.mp hlong, fun _ => rfl⟩

theorem Plan.steps_error (hlast : validateOperation last = .error error) :
    ∀ {plan : Plan} {operations : List BatchOperation},
      (∀ operation ∈ operations, operation.Valid) →
      Plan.steps revision plan (operations ++ [last]) = .error error := by
  intro plan operations
  induction operations generalizing plan with
  | nil =>
    intro _
    have hstep : plan.step revision last = .error error := by
      cases last with
      | put key value | delete key => rw [Plan.step, hlast, error_bind]
    rw [nil_append, Plan.steps, hstep, error_bind]
  | cons operation rest ih =>
    intro hvalid
    rw [forall_mem_cons] at hvalid
    have hop : validateOperation operation = .ok () := hvalid.1
    have hrest := fun {plan : Plan} =>
      @ih plan hvalid.2
    cases operation with
    | put key value | delete key =>
      rw [cons_append, Plan.steps, Plan.step, hop, ok_bind]
      exact hrest

section

variable (h : Serves ordered engine levels rows) (hhealthy : engine.poisoned = false)
  (hvalid : ∀ operation ∈ operations, operation.Valid)
  (huser : ∀ operation ∈ operations, isInternal operation.key = false)
include h hhealthy hvalid huser

/-- With room, the batch is accepted. -/
theorem HasRoom.accepts (hroom : HasRoom engine levels rows operations) :
    Accepts engine rows operations (engine.withRecord rows operations) := by
  have hmax : maxValueSize = 2 ^ 24 := rfl
  have hcount := length_le_payloadLen (effective (engine.lastLsn + 1) rows operations)
  refine ⟨hhealthy, ?_, ?_, fun o ho => fromCaller_of_user (huser o ho), hroom.lsn, ?_⟩
  · rw [withChangeLog_eq h hroom.lsn huser (hroom.reaches.batch (fun _ => mem_withRecord))]
    refine if_neg (fun hmany => ?_)
    have hfits := hroom.changes hmany.1
    omega
  · intro operation hop
    rcases withRecord_cases engine rows operations with ⟨heq, _⟩ | ⟨hon, heq⟩
    · rw [heq] at hop
      exact hvalid operation hop
    · rw [heq] at hop
      rcases mem_append.mp hop with hop | hop
      · exact hvalid operation hop
      · rw [mem_singleton.mp hop]
        exact changeRecord_valid_iff.mpr (hroom.changes hon)
  · rw [checkRecord_ok_iff]
    rcases withRecord_cases engine rows operations with ⟨heq, hoff | hnil⟩ | ⟨hon, heq⟩
    · rw [heq]
      exact hroom.record hoff
    · rw [heq, hnil]
      decide
    · have hfits := hroom.changes hon
      have hone : ∀ (rows : Rows) (key value : Bytes),
          effective (engine.lastLsn + 1) rows [.put key value] = [.put key value] :=
        fun _ _ _ => rfl
      rw [heq, effective_append, hone, payloadLen_append, payloadLen_cons, BatchOperation.key,
        length_changeLogKey]
      show recordHeaderLen + (payloadLen _ + (opHeaderLen + 24 + (encodeBatch _).length + 0))
        + recordFooterLen < 2 ^ 32
      rw [encodeBatch_length, recordHeaderLen, recordFooterLen, opHeaderLen]
      omega

omit hhealthy hvalid in
/-- A batch that was accepted had room. -/
theorem hasRoom_of_accepts {combined : List BatchOperation}
    (hacc : Accepts engine rows operations combined)
    (hreach : Reaches levels engine.writeBack (wantedKeys engine.tombstonesPossible combined)) :
    HasRoom engine levels rows operations := by
  have hkeys := hreach.batch (fun _ => mem_withChangeLog hacc.changeLog)
  -- so the batch that was accepted is the one with the record of its changes
  obtain rfl : combined = engine.withRecord rows operations := by
    have hlog := hacc.changeLog
    rw [withChangeLog_eq h hacc.lsn huser hkeys] at hlog
    split_ifs at hlog
    exact (Except.ok.inj hlog).symm
  have hwal := checkRecord_ok_iff.mp hacc.record
  refine ⟨hacc.lsn, hreach, fun hon => ?_, fun hoff => ?_⟩
  · rcases withRecord_cases engine rows operations with ⟨_, hoff | hnil⟩ | ⟨_, heq⟩
    · rw [hoff] at hon
      cases hon
    · rw [hnil]
      decide
    · refine (@changeRecord_valid_iff (engine.lastLsn + 1) _).mp (hacc.valid _ ?_)
      rw [heq]
      exact mem_append_right _ mem_cons_self
  · rw [Engine.withRecord, if_pos (.inl hoff)] at hwal
    exact hwal

/-- **ACCEPTANCE**: a healthy engine takes a batch of valid user operations exactly when there is
    room for it. -/
theorem applyBatch_ok_iff (hm : Mvcc.WellFormed engine.mvcc engine.mvccValues)
    (hne : operations ≠ []) :
    (∃ results after, engine.applyBatch operations = .ok (results, after)) ↔
      HasRoom engine levels rows operations := by
  constructor
  · rintro ⟨results, after, hrun⟩
    obtain ⟨combined, hacc, hreach⟩ :=
      accepts_of_applyBatch h (fun o ho => fromCaller_of_user (huser o ho)) hne hrun
    exact hasRoom_of_accepts h huser hacc hreach
  · intro hroom
    obtain ⟨results, after, _, hrun, _⟩ :=
      applyBatch_serves h hm hroom.reaches (hroom.accepts h hhealthy hvalid huser)
    exact ⟨results, after, hrun⟩

/-- A change record that is too long fails the batch with the error that names a value. -/
theorem applyBatch_tooLarge (hne : operations ≠ []) (hlsn : engine.lastLsn + 1 < 2 ^ 64)
    (hon : engine.changeLogEnabled = true) (hd : levels ≤ maxTreeDepth)
    (hcount : (effective (engine.lastLsn + 1) rows operations).length < 2 ^ 32)
    (hlong : maxValueSize < 4 + payloadLen (effective (engine.lastLsn + 1) rows operations)) :
    engine.applyBatch operations = .error .valueTooLarge := by
  have hensure := ensureHealthy_ok hhealthy
  have hchanges : effective (engine.lastLsn + 1) rows operations ≠ [] := by
    intro hnil
    rw [hnil] at hlong
    exact absurd hlong (by decide)
  have hrecord : validateOperation (.put (changeLogKey (engine.lastLsn + 1)) (encodeBatch
      ((effective (engine.lastLsn + 1) rows operations).map BatchOperation.change)))
        = .error .valueTooLarge := by
    rw [validateOperation, changeLogKey_valid, ok_bind, validateValue, encodeBatch_length,
      if_pos hlong]
  rw [Engine.applyBatch, hensure, ok_bind, if_neg hne, forM_validate hvalid, ok_bind,
    withChangeLog_eq h hlsn huser (.inl hd),
    if_neg (fun hmany => absurd hmany.2 (not_le.mpr hcount)), ok_bind, Engine.withRecord,
    if_neg (by simp [hon, hchanges]), planBatch_eq h (.inl hd), nextLsn_ok hlsn, ok_bind,
    Plan.steps_error hrecord hvalid, error_bind, error_bind]

end

/-! ## What callers see -/

/-- An operation within the limits on keys and values, on a key that is not reserved. -/
structure BatchOperation.Allowed (operation : BatchOperation) : Prop where
  key_pos : operation.key ≠ []
  key_le : operation.key.length ≤ maxKeySize
  value_le : operation.valueLen ≤ maxValueSize
  user : isInternal operation.key = false

theorem BatchOperation.Allowed.valid (h : operation.Allowed) : operation.Valid := by
  have hkey : validateKey operation.key = .ok () := by
    rw [validateKey, if_neg h.key_pos, if_neg (not_lt.mpr h.key_le)]
  cases operation with
  | put key value =>
    have hvalue : value.length ≤ maxValueSize := h.value_le
    rw [BatchOperation.Valid, validateOperation, show validateKey key = _ from hkey, ok_bind,
      validateValue, if_neg (not_lt.mpr hvalue)]
  | delete => exact hkey

/-- **WRITE BATCH**: with every operation within its own limits, a batch is taken exactly when
    the sequence number, the record of its changes and its log record fit and its keys can be
    read. -/
theorem writeBatch_ok_iff (h : Serves ordered engine levels rows)
    (hm : Mvcc.WellFormed engine.mvcc engine.mvccValues) (hhealthy : engine.poisoned = false)
    (hne : operations ≠ []) (hallowed : ∀ operation ∈ operations, operation.Allowed) :
    (∃ results after, engine.writeBatch operations = .ok (results, after)) ↔
      HasRoom engine levels rows operations := by
  have huser := fun o ho => (hallowed o ho).user
  rw [Engine.writeBatch, forM_user.mpr huser, ok_bind]
  exact applyBatch_ok_iff h hhealthy (fun o ho => (hallowed o ho).valid) huser hm hne

end Batch

/-- A fresh engine with the change log on, as it is by default. -/
def Engine.logging : Engine := { Engine.atRest PageTree.fresh with changeLogEnabled := true }

theorem logging_serves : Serves false Engine.logging 0 [] :=
  (atRest_serves fresh_denotes ValueLog.whole_nil nofun).congr rfl rfl rfl

/-- One byte under a key of one byte fits. -/
theorem writeBatch_ok_iff_small :
    ∃ results after, Engine.logging.writeBatch [.put [107] [1]] = .ok (results, after) := by
  refine (writeBatch_ok_iff logging_serves (atRest_mvcc PageTree.fresh) rfl
    (cons_ne_nil _ _) ?_).mpr ?_
  · exact forall_mem_singleton.mpr ⟨by decide, by decide, by decide, by decide⟩
  · exact ⟨by decide, .inl (Nat.zero_le _), fun _ => by decide, nofun⟩

/-- A single value of the largest size is refused, and the error names the value. -/
theorem largest_value_refused :
    (BatchOperation.put [107] (replicate maxValueSize 0)).Allowed ∧
      Engine.logging.writeBatch [.put [107] (replicate maxValueSize 0)]
        = .error .valueTooLarge := by
  have hallowed : (BatchOperation.put [107] (replicate maxValueSize 0)).Allowed :=
    ⟨by decide, by decide, by
      rw [BatchOperation.valueLen, BatchOperation.value?, Option.map_some, Option.getD_some,
        length_replicate], by decide⟩
  refine ⟨hallowed, ?_⟩
  have hops : ∀ operation ∈ [BatchOperation.put [107] (replicate maxValueSize 0)],
      operation.Allowed := by
    intro operation hop
    rw [mem_singleton.mp hop]
    exact hallowed
  have heffect : effective (Engine.logging.lastLsn + 1) []
      [BatchOperation.put [107] (replicate maxValueSize 0)]
        = [BatchOperation.put [107] (replicate maxValueSize 0)] := rfl
  rw [Engine.writeBatch, forM_user.mpr (fun o ho => (hops o ho).user), ok_bind]
  refine applyBatch_tooLarge logging_serves rfl (fun o ho => (hops o ho).valid)
    (fun o ho => (hops o ho).user) (cons_ne_nil _ _) (by decide) rfl (Nat.zero_le _) ?_ ?_
  · rw [heffect, length_singleton]
    decide
  · rw [heffect, payloadLen_cons, BatchOperation.valueLen, BatchOperation.value?,
      Option.map_some, Option.getD_some, length_replicate]
    omega

end Vyrn
