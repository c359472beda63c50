import Vyrn.Engine.ReadEngine
import Vyrn.Lib.Transition
import Vyrn.Server.Replication

/-!
# The write pipeline of a shard

Requests that change storage take one of three routes through the write worker. Key/value
operations and transactions are applied in batches, logged but not synced, and handed to the flush
worker. A document write commits behind its own syncs and is handed over only to be published in
order. An index change commits on its own too, but the write worker answers it itself. The flush
worker takes what is queued as one group, waits for one sync and one quorum through the highest LSN
that asks for one, refreshes the read handle, feeds the subscribers and answers; a group whose
barrier fails is answered with an error. Beside both run the checkpoint task, which republishes a
compacted tree, transactions, which read at the LSN the engine has reached, and cursor
subscriptions, which replay the engine's change log. Errors of the storage are left out.

The engine is held as what it committed: a tree root is named by the LSN its map reflects
(`stateAt`), and what a commit changes is given by the event. One read handle stands for each of
them. Fields that no handler reads say what happened: the LSN at open, the quorums that were
reached, the highest LSN of a group that failed, what was fed and replayed, and the answers.
-/

namespace Vyrn

open List

/-- The requests that change storage. -/
inductive Request where
  | put (id : Nat)
  | delete (id : Nat)
  | transaction (id : Nat)
  | createCollection (id : Nat)
  | putDocument (id : Nat)
  | deleteDocument (id : Nat)
  | createIndex (id : Nat)
  | dropIndex (id : Nat)
  deriving DecidableEq, Repr

inductive Route where
  | batch
  | document
  | index
  deriving DecidableEq, Repr

def Request.route : Request → Route
  | .put _ | .delete _ | .transaction _ => .batch
  | .createCollection _ | .putDocument _ | .deleteDocument _ => .document
  | .createIndex _ | .dropIndex _ => .index

/-- What the engine makes of one commit: the rows it leaves, whether the change log publishes it,
    and whether the tree absorbs the write-back buffer behind it. -/
structure Effect where
  mutations : List (Bytes × Option Bytes)
  publishes : Bool
  absorb : Bool
  deriving DecidableEq, Repr

/-- An applied commit on its way to the flush worker. `records` are the LSNs its requests logged. -/
structure PendingFlush where
  lsn : Option Nat
  requests : List Request
  answers : List Request
  records : List Nat
  published : List Nat
  writeBack : WriteBackPublish
  generation : Nat
  root : Nat
  deriving DecidableEq, Repr

/-- An answer with success: the LSNs of the request, what was synced when it was sent, and the
    registry of acknowledgements in which the wait for a quorum ended, if there was one. -/
structure Answer where
  request : Request
  records : List Nat
  synced : Nat
  seen : Option Replication
  deriving DecidableEq, Repr

/-- What the flush worker is doing with its group. -/
inductive Stage where
  | idle
  | barrier (lsn : Nat) (flushed : Bool) (seen : Option Replication)
  | publishing (seen : Option Replication)
  deriving DecidableEq, Repr

structure Shard where
  writeBack : Bool
  commits : List (List (Bytes × Option Bytes))
  absorbed : Nat
  generation : Nat
  synced : Nat
  lastPublished : List Nat
  replication : Replication
  queue : List PendingFlush
  group : List PendingFlush
  stage : Stage
  reader : ReadEngine Nat
  snapshots : List Nat
  opened : Nat
  reached : List (Nat × Replication)
  failed : Nat
  feed : List Nat
  replayed : Nat
  answered : List Answer
  deriving DecidableEq, Repr

namespace Shard

inductive Event where
  | batch (requests : List Request) (effect : Option Effect)
  | refuse (requests : List Request)
  | document (request : Request) (effects : List Effect) (ok : Bool)
  | index (request : Request) (effect : Effect)
  | take
  | sync (covered : Nat)
  | quorum
  | pass
  | expire
  | publish
  | skip
  | register
  | acknowledge (slot lsn : Nat)
  | deregister (slot : Nat)
  | checkpoint
  | republish
  | begin
  | replay
  deriving DecidableEq, Repr

/-- The map after the first commits. -/
def stateAt (commits : List (List (Bytes × Option Bytes))) (lsn : Nat) (key : Bytes) :
    Option Bytes :=
  (commits.take lsn).foldl (written key) none

/-- What a read on the handle answers. -/
def serves (s : Shard) (key : Bytes) : Option Bytes :=
  match buffered s.reader.overlay key with
  | some entry => entry.value
  | none => stateAt s.commits s.reader.tree key

/-! ## The write worker -/

/-- One commit. The tree has it at once, or once it absorbs the buffer. -/
def commit (immediate : Bool) (s : Shard) (effect : Effect) : Shard :=
  { s with
    commits := s.commits ++ [effect.mutations]
    absorbed := if s.writeBack && !effect.absorb then s.absorbed else s.commits.length + 1
    synced := if immediate then s.commits.length + 1 else s.synced
    lastPublished := if effect.publishes then [s.commits.length + 1] else [] }

/-- The mutations staged by the most recent commit, with the watermark of the tree. -/
def takeWriteBackPublish (s : Shard) (staged : List (Bytes × Option Bytes)) : WriteBackPublish :=
  if s.writeBack then
    ⟨staged.map (fun m => ⟨m.1, m.2, s.commits.length⟩), some s.absorbed⟩
  else ⟨[], none⟩

/-- Hands a commit to the flush worker. -/
def push (s : Shard) (flush : PendingFlush) : Shard := { s with queue := s.queue ++ [flush] }

/-- A batch is applied; one that changes nothing logs nothing. -/
def batch (s : Shard) (requests : List Request) : Option Effect → Shard
  | none =>
    let t := { s with lastPublished := [] }
    t.push ⟨none, requests, [], [], t.lastPublished, t.takeWriteBackPublish [], t.generation,
      t.absorbed⟩
  | some effect =>
    let t := s.commit false effect
    t.push ⟨some t.commits.length, requests, [], [t.commits.length], t.lastPublished,
      t.takeWriteBackPublish effect.mutations, t.generation, t.absorbed⟩

/-- The commits of a document write, each behind its own sync. Only the last one is staged for
    the read handles; a write that fails on the way is answered at once. -/
def document (s : Shard) (request : Request) (effects : List Effect) (ok : Bool) : Shard :=
  let t := effects.foldl (commit true) s
  if ok then
    t.push ⟨none, [], [request], List.range' (s.commits.length + 1) effects.length,
      t.lastPublished, t.takeWriteBackPublish ((effects.getLast?.map Effect.mutations).getD []),
      t.generation, t.absorbed⟩
  else t

/-- An index change is queued for the read handles when there is a buffer to teach, and answered
    here. -/
def index (s : Shard) (request : Request) (effect : Effect) : Shard :=
  let t := s.commit true effect
  let publish := t.takeWriteBackPublish effect.mutations
  let queued := if publish.isEmpty then t
    else t.push ⟨none, [], [], [t.commits.length], [], publish, t.generation, t.absorbed⟩
  { queued with
    answered := queued.answered ++ [⟨request, [t.commits.length], t.synced, none⟩] }

/-! ## The flush worker -/

/-- The group is everything that is queued, behind the highest LSN that asks for a barrier. -/
def take (s : Shard) : Shard :=
  { s with
    queue := []
    group := s.queue
    stage := match (s.queue.filterMap PendingFlush.lsn).max? with
      | some lsn => .barrier lsn false none
      | none => .publishing none }

def refreshReader (s : Shard) (flush : PendingFlush) : Except Error (ReadEngine Nat) := do
  let reader ← s.reader.refresh flush.generation flush.root
    (decide (flush.generation < s.generation))
  reader.publishWriteBack flush.writeBack

/-- Feeds the subscribers and answers, once the handle is refreshed. -/
def publishCommit (s : Shard) (seen : Option Replication) (flush : PendingFlush)
    (rest : List PendingFlush) (reader : ReadEngine Nat) : Shard :=
  { s with
    reader := reader
    feed := s.feed ++ flush.published
    answered := s.answered ++ (flush.requests ++ flush.answers).map (fun request =>
      ⟨request, flush.records, s.synced, seen⟩)
    group := rest
    stage := if rest.isEmpty then .idle else .publishing seen }

/-! ## The checkpoint task -/

/-- The compacted tree holds everything; rotating the log syncs it. -/
def checkpoint (s : Shard) : Shard :=
  { s with
    generation := s.generation + 1
    absorbed := s.commits.length
    synced := s.commits.length }

def republish (s : Shard) : Except Error Shard := do
  let reader ← s.reader.refresh s.generation s.absorbed false
  return { s with
    reader := if s.writeBack then reader.evictWriteBackThrough s.absorbed else reader }

/-! ## The system -/

/-- One event, `none` where it cannot happen. -/
def act (s : Shard) : Event → Option Shard
  | .batch requests effect =>
    if ∀ request ∈ requests, request.route = .batch then some (s.batch requests effect) else none
  | .refuse requests =>
    if ∀ request ∈ requests, request.route = .batch then some { s with lastPublished := [] }
    else none
  | .document request effects ok =>
    if request.route = .document then some (s.document request effects ok) else none
  | .index request effect =>
    if request.route = .index then some (s.index request effect) else none
  | .take => if s.stage = .idle ∧ s.queue ≠ [] then some s.take else none
  | .sync covered =>
    match s.stage with
    | .barrier lsn false seen =>
      if lsn ≤ covered ∧ covered ≤ s.commits.length then
        some { s with synced := max s.synced covered, stage := .barrier lsn true seen }
      else none
    | _ => none
  | .quorum =>
    match s.stage with
    | .barrier lsn flushed none =>
      if awaitQuorum lsn s.replication [] = .ok () then
        some { s with
          stage := .barrier lsn flushed (some s.replication)
          reached := s.reached ++ [(lsn, s.replication)] }
      else none
    | _ => none
  | .pass =>
    match s.stage with
    | .barrier _ true (some seen) => some { s with stage := .publishing (some seen) }
    | _ => none
  | .expire =>
    match s.stage with
    | .barrier lsn flushed seen =>
      if flushed = false ∨ seen = none then
        some { s with group := [], stage := .idle, failed := max s.failed lsn }
      else none
    | _ => none
  | .publish =>
    match s.stage, s.group with
    | .publishing seen, flush :: rest =>
      match s.refreshReader flush with
      | .ok reader => some (s.publishCommit seen flush rest reader)
      | .error _ => none
    | _, _ => none
  | .skip =>
    match s.stage, s.group with
    | .publishing seen, flush :: rest =>
      match s.refreshReader flush with
      | .ok _ => none
      | .error _ =>
        if flush.generation ≠ s.generation then some (s.publishCommit seen flush rest s.reader)
        else none
    | _, _ => none
  | .register => some { s with replication := s.replication.register.2 }
  | .acknowledge slot lsn => some { s with replication := s.replication.acknowledge slot lsn }
  | .deregister slot => some { s with replication := s.replication.deregister slot }
  | .checkpoint => some s.checkpoint
  | .republish =>
    match s.republish with
    | .ok t => some t
    | .error _ => none
  | .begin => some { s with snapshots := s.snapshots ++ [s.commits.length] }
  | .replay => some { s with replayed := s.commits.length }

def Step (s : Shard) (event : Event) (t : Shard) : Prop := act s event = some t

variable (s : Shard) in
/-- The outcomes of the events, each with what held before it. -/
inductive Move : Event → Shard → Prop where
  | batch {requests effect} (hroute : ∀ request ∈ requests, request.route = .batch) :
      Move (.batch requests effect) (s.batch requests effect)
  | refuse {requests} : Move (.refuse requests) { s with lastPublished := [] }
  | document {request effects ok} (hroute : request.route = .document) :
      Move (.document request effects ok) (s.document request effects ok)
  | index {request effect} (hroute : request.route = .index) :
      Move (.index request effect) (s.index request effect)
  | take (hidle : s.stage = .idle) (hqueue : s.queue ≠ []) : Move .take s.take
  | sync {lsn covered seen} (hstage : s.stage = .barrier lsn false seen) (hlsn : lsn ≤ covered)
      (hcovered : covered ≤ s.commits.length) : Move (.sync covered)
        { s with synced := max s.synced covered, stage := .barrier lsn true seen }
  | quorum {lsn flushed} (hstage : s.stage = .barrier lsn flushed none)
      (hquorum : awaitQuorum lsn s.replication [] = .ok ()) : Move .quorum { s with
        stage := .barrier lsn flushed (some s.replication)
        reached := s.reached ++ [(lsn, s.replication)] }
  | pass {lsn seen} (hstage : s.stage = .barrier lsn true (some seen)) :
      Move .pass { s with stage := .publishing (some seen) }
  | expire {lsn flushed seen} (hstage : s.stage = .barrier lsn flushed seen) :
      Move .expire { s with group := [], stage := .idle, failed := max s.failed lsn }
  | publish {seen flush rest reader} (hstage : s.stage = .publishing seen)
      (hgroup : s.group = flush :: rest) (hreader : s.refreshReader flush = .ok reader) :
      Move .publish (s.publishCommit seen flush rest reader)
  | skip {seen flush rest error} (hstage : s.stage = .publishing seen)
      (hgroup : s.group = flush :: rest) (hreader : s.refreshReader flush = .error error)
      (hretired : flush.generation ≠ s.generation) :
      Move .skip (s.publishCommit seen flush rest s.reader)
  | register : Move .register { s with replication := s.replication.register.2 }
  | acknowledge {slot lsn} :
      Move (.acknowledge slot lsn) { s with replication := s.replication.acknowledge slot lsn }
  | deregister {slot} :
      Move (.deregister slot) { s with replication := s.replication.deregister slot }
  | checkpoint : Move .checkpoint s.checkpoint
  | republish {t} (hrepublish : s.republish = .ok t) : Move .republish t
  | begin : Move .begin { s with snapshots := s.snapshots ++ [s.commits.length] }
  | replay : Move .replay { s with replayed := s.commits.length }

variable {s : Shard}

/-- **INVERSION**: every event is one of the outcomes. -/
theorem Step.move {t : Shard} {event : Event} (h : Step s event t) : Move s event t := by
  rw [Step] at h
  cases event with
  | batch | document | index =>
    rw [act] at h
    split_ifs at h with hroute
    cases h
    constructor
    exact hroute
  | refuse | take =>
    rw [act] at h
    split_ifs at h with hguard
    cases h
    constructor <;> simp only [hguard, ne_eq, not_false_eq_true]
  | sync =>
    rw [act] at h
    split at h
    · next hstage =>
        split_ifs at h with hguard
        cases h
        exact .sync hstage hguard.1 hguard.2
    · cases h
  | quorum =>
    rw [act] at h
    split at h
    · next hstage =>
        split_ifs at h with hquorum
        cases h
        exact .quorum hstage hquorum
    · cases h
  | pass =>
    rw [act] at h
    split at h
    · next hstage =>
        cases h
        exact .pass hstage
    · cases h
  | expire =>
    rw [act] at h
    split at h
    · next hstage =>
        split_ifs at h
        cases h
        exact .expire hstage
    · cases h
  | publish =>
    rw [act] at h
    split at h
    · next hstage hgroup =>
        split at h
        · next hreader =>
            cases h
            exact .publish hstage hgroup hreader
        · cases h
    · cases h
  | skip =>
    rw [act] at h
    split at h
    · next hstage hgroup =>
        split at h
        · cases h
        · next hreader =>
            split_ifs at h with hretired
            cases h
            exact .skip hstage hgroup hreader hretired
    · cases h
  | republish =>
    rw [act] at h
    split at h
    · next hrepublish =>
        cases h
        exact .republish hrepublish
    · cases h
  | register | acknowledge | deregister | checkpoint | begin | replay =>
    cases h
    constructor

/-! ## The start -/

/-- A shard that was just opened: everything it holds is synced, and the handle serves it. -/
structure Started (s : Shard) : Prop where
  synced : s.synced = s.commits.length
  absorbed : s.absorbed = s.commits.length
  opened : s.opened = s.commits.length
  lastPublished : s.lastPublished = []
  queue : s.queue = []
  group : s.group = []
  stage : s.stage = .idle
  generation : s.reader.generation = s.generation
  tree : s.reader.tree = s.commits.length
  overlay : s.reader.overlay = if s.writeBack then some (Overlay.new (2 ^ 64 - 1)) else none
  evicted : s.reader.overlayEvictedThrough = 0
  snapshots : s.snapshots = []
  reached : s.reached = []
  failed : s.failed = 0
  feed : s.feed = []
  replayed : s.replayed = 0
  answered : s.answered = []

/-- A shard over an empty directory. -/
def fresh (writeBack : Bool) (minAcks : Nat) : Shard where
  writeBack := writeBack
  commits := []
  absorbed := 0
  generation := 0
  synced := 0
  lastPublished := []
  replication := Replication.new minAcks
  queue := []
  group := []
  stage := .idle
  reader := ⟨0, 0, if writeBack then some (Overlay.new (2 ^ 64 - 1)) else none, 0⟩
  snapshots := []
  opened := 0
  reached := []
  failed := 0
  feed := []
  replayed := 0
  answered := []

theorem fresh_started (writeBack : Bool) (minAcks : Nat) : Started (fresh writeBack minAcks) := by
  constructor <;> rfl

/-! ## The queue in front of the handle -/

section Queue

variable {s : Shard} {flush other : PendingFlush} {rest : List PendingFlush}

theorem forall_push {p : PendingFlush → Prop} :
    (∀ other ∈ s.group ++ (s.queue ++ [flush]), p other) ↔
      (∀ other ∈ s.group ++ s.queue, p other) ∧ p flush := by
  rw [← append_assoc, forall_mem_append, forall_mem_singleton]

/-- What a group waits for: the highest LSN in it, or nothing when it has none. -/
theorem take_stage (s : Shard) :
    (∃ lsn, (s.queue.filterMap PendingFlush.lsn).max? = some lsn ∧
        s.take.stage = .barrier lsn false none) ∨
      (∀ flush ∈ s.queue, flush.lsn = none) ∧ s.take.stage = .publishing none := by
  rw [take]
  cases hmax : (s.queue.filterMap PendingFlush.lsn).max? with
  | some lsn => exact .inl ⟨lsn, rfl, rfl⟩
  | none =>
    rw [max?_eq_none_iff, filterMap_eq_nil_iff] at hmax
    exact .inr ⟨hmax, rfl⟩

section

variable (h : s.group = flush :: rest)
include h

theorem queue_cons : s.group ++ s.queue = flush :: (rest ++ s.queue) := by
  rw [h, cons_append]

theorem mem_head : flush ∈ s.group ++ s.queue := by
  rw [queue_cons h]
  exact mem_cons_self

theorem mem_rest (hother : other ∈ rest ++ s.queue) : other ∈ s.group ++ s.queue := by
  rw [queue_cons h]
  exact mem_cons_of_mem _ hother

end

end Queue

/-! ## The commits of a request -/

@[simp] theorem commit_commits (immediate : Bool) (s : Shard) (effect : Effect) :
    (s.commit immediate effect).commits = s.commits ++ [effect.mutations] := rfl

theorem commit_absorbed_le (immediate : Bool) (effect : Effect)
    (h : s.absorbed ≤ s.commits.length) :
    s.absorbed ≤ (s.commit immediate effect).absorbed ∧
      (s.commit immediate effect).absorbed ≤ (s.commit immediate effect).commits.length := by
  rw [commit_commits, length_append, length_singleton]
  show s.absorbed ≤ (if s.writeBack && !effect.absorb then s.absorbed else s.commits.length + 1) ∧
    (if s.writeBack && !effect.absorb then s.absorbed else s.commits.length + 1) ≤
      s.commits.length + 1
  split_ifs
  · exact ⟨le_rfl, Nat.le_succ_of_le h⟩
  · exact ⟨Nat.le_succ_of_le h, le_rfl⟩

/-- What every commit keeps is kept by all of them. -/
theorem foldl_commit {I : Shard → Prop} (hcommit : ∀ {s effect}, I s → I (s.commit true effect))
    (h : I s) (effects : List Effect) : I (effects.foldl (Shard.commit true) s) :=
  List.foldlRecOn effects _ h (fun _ hs _ _ => hcommit hs)

theorem foldl_commit_commits (effects : List Effect) (s : Shard) :
    (effects.foldl (commit true) s).commits = s.commits ++ effects.map Effect.mutations := by
  induction effects generalizing s with
  | nil => simp
  | cons effect rest ih =>
    rw [foldl_cons, ih, commit_commits, append_assoc, map_cons, singleton_append]

/-- Its own sync covers every one of them. -/
theorem foldl_commit_synced {effects : List Effect}
    (h : effects ≠ [] ∨ s.synced = s.commits.length) :
    (effects.foldl (commit true) s).synced = (effects.foldl (commit true) s).commits.length := by
  induction effects generalizing s with
  | nil => exact h.resolve_left (fun hc => hc rfl)
  | cons effect rest ih =>
    rw [foldl_cons]
    refine ih (.inr ?_)
    show s.commits.length + 1 = (s.commits ++ [effect.mutations]).length
    rw [length_append, length_singleton]

/-- What an index change queues. -/
def indexFlush (s : Shard) (effect : Effect) : PendingFlush :=
  let t := s.commit true effect
  ⟨none, [], [], [t.commits.length], [], t.takeWriteBackPublish effect.mutations, t.generation,
    t.absorbed⟩

/-- An index change before it is answered. -/
def indexed (s : Shard) (effect : Effect) : Shard :=
  if (s.indexFlush effect).writeBack.isEmpty then s.commit true effect
  else (s.commit true effect).push (s.indexFlush effect)

end Shard

end Vyrn
