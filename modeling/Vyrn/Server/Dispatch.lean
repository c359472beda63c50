import Vyrn.Lib.Transition
import Vyrn.Server.Failover
import Vyrn.Server.Transaction

/-!
# Who may write

A node that follows a primary must not add records of its own to its log, so `execute` refuses every
message that changes storage there; but a transaction is opened and committed by the connection
itself, past that check, and a request that was accepted is applied later, when the role may have
changed. **`only_primary_originates`** is the result over every run that is `Guarded`;
**`replica_commits_transaction`** is a transaction on a read-only replica.
-/

namespace Vyrn

open Transition

/-- Where a record of the log comes from. -/
inductive Origin where
  | client
  | primary
  deriving DecidableEq, Repr

/-- A node that serves clients. `writes` is what was handed to the write worker and is not applied
    yet. -/
structure ServerState where
  failover : Option Failover
  readOnly : Bool
  transactions : Nat → Option ConnectionTransaction
  writes : List WriteRequest
  log : List Origin

/-! ## The dispatch -/

/-- Whether a message changes storage, and so must be refused on a replica. -/
def mutatesStorage : Message → Bool
  | .put .. | .delete .. | .createIndex .. | .dropIndex .. | .indexUpdate .. | .createCollection ..
  | .putDocument .. | .deleteDocument .. | .begin | .commit => true
  | _ => false

namespace ServerState

/-- Why a node refuses writes: its role with failover, and the flag without. -/
def refusal (state : ServerState) : Option String :=
  match state.failover with
  | some failover =>
    match failover.role with
    | .primary => none
    | .follower =>
      some s!"this node is a follower at epoch {failover.epoch}; send writes to the primary"
  | none =>
    if state.readOnly then
      some ("this node is a replica and does not accept writes; send writes to the primary, " ++
        "or promote this node by restarting it without --replica-of")
    else none

/-- Hands a request to the write worker, which answers it. -/
def submit (state : ServerState) (request : WriteRequest) : Option Reply × ServerState :=
  (none, { state with writes := state.writes ++ [request] })

/-- A read, which a reader answers, or a limit that is out of range. -/
def limited (state : ServerState) (limit : Nat) (message : String) : Option Reply × ServerState :=
  if limit = 0 ∨ maxScanLimit < limit then (some (.error .invalidRequest message), state)
  else (none, state)

/-- A message outside a transaction. -/
def execute (state : ServerState) (message : Message) : Option Reply × ServerState :=
  match if mutatesStorage message then state.refusal else none with
  | some refusal => (some (.error .invalidRequest refusal), state)
  | none =>
    match message with
    | .put key value => state.submit (.operation (.put key value))
    | .delete key => state.submit (.operation (.delete key))
    | .get _ | .getDocument .. => (none, state)
    | .multiGet keys => state.limited keys.length "multi-get key count is out of range"
    | .createCollection collection indexes =>
      if maxDocumentIndexes < indexes.length then
        (some (.error .invalidRequest "too many document indexes"), state)
      else state.submit (.document (.createCollection collection indexes))
    | .putDocument collection id document => state.submit (.document (.put collection id document))
    | .deleteDocument collection id => state.submit (.document (.delete collection id))
    | .listDocuments _ limit | .queryDocuments _ _ _ limit =>
      state.limited limit "document limit is out of range"
    | .createIndex name unique => state.submit (.createIndex name unique)
    | .dropIndex name => state.submit (.dropIndex name)
    | .indexLookup _ _ limit => state.limited limit "index limit is out of range"
    | .scan start stop limit =>
      if limit = 0 ∨ maxScanLimit < limit then
        (some (.error .invalidRequest "scan limit is out of range"), state)
      else if (start.bind (fun start => stop.map (fun stop => decide (stop < start)))).getD
          false then
        (some (.error .invalidRequest "scan start must not exceed end"), state)
      else (none, state)
    | _ => (some (.error .invalidRequest "message is not a valid request"), state)

def setTransaction (state : ServerState) (connection : Nat)
    (transaction : Option ConnectionTransaction) : ServerState :=
  { state with transactions := Function.update state.transactions connection transaction }

/-- Opens a subscription, which from then on owns the connection. -/
def stream (state : ServerState) (start : Bytes) : Option Reply × ServerState :=
  if maxKeySize < start.length then
    (some (.error .invalidRequest "subscription prefix is too large"), state)
  else (none, state)

/-- One message of a connection. -/
def serve (state : ServerState) (reads : Reads) (expired : Bool) (connection : Nat)
    (message : Message) : Option Reply × ServerState :=
  match message, state.transactions connection with
  | .voteRequest epoch durableLsn, none =>
    match state.failover with
    | none =>
      (some (.error .invalidRequest
        "this node is not configured for automatic failover (--cluster)"), state)
    | some failover =>
      let (granted, failover) := failover.considerVote epoch durableLsn state.log.length
      (some (.voteResponse granted failover.epoch), { state with failover := some failover })
  | .subscribe start, none | .subscribeFrom start _, none => state.stream start
  | .subscribeCollection _, none | .subscribeCollectionFrom .., none => (none, state)
  | .begin, none =>
    (some .begun, state.setTransaction connection (some (.opened state.log.length)))
  | .commit, some transaction =>
    let state := state.setTransaction connection none
    if expired then
      (some (.error .conflict "transaction exceeded its lifetime limit"), state)
    else
      match commitTransaction transaction with
      | none => (some .committed, state)
      | some check => state.submit (.transaction check)
  | .rollback, some _ => (some .rolledBack, state.setTransaction connection none)
  | .begin, some _ | .commit, none | .rollback, none | .subscribe _, some _
  | .subscribeCollection _, some _ =>
    (some (.error .invalidRequest "invalid transaction state"), state)
  | message, some transaction =>
    let (reply, transaction) := executeTransaction reads transaction message
    (some reply, state.setTransaction connection (some transaction))
  | message, none => state.execute message

/-! ## The system -/

inductive Event where
  | message (connection : Nat) (message : Message) (reads : Reads) (expired : Bool)
  | close (connection : Nat)
  | apply (count records : Nat)
  | replicate
  | observeEpoch (epoch : Nat)
  | stand
  | promote
  | stepDown

/-- Whether the write worker takes these requests as one: a batch, or another request alone. -/
def Grouped (requests : List WriteRequest) : Prop :=
  requests.length = 1 ∨ ∀ request ∈ requests, match request with
    | .operation _ | .transaction _ => True
    | _ => False

instance (requests : List WriteRequest) : Decidable (Grouped requests) :=
  @instDecidableOr _ _ _ (@List.decidableBAll _ _ (fun request => match request with
    | .operation _ | .transaction _ => isTrue trivial
    | .document _ | .createIndex .. | .dropIndex _ => isFalse id) _)

/-- How many records the engine may log for them: a document request can make several commits. -/
def mostRecords (requests : List WriteRequest) (records : Nat) : Nat :=
  match requests with
  | [.document _] => records
  | _ => 1

def withFailover (state : ServerState) (change : Failover → Failover) : Option ServerState :=
  state.failover.map (fun failover => { state with failover := some (change failover) })

/-- One event, `none` where it cannot happen. -/
def act (state : ServerState) : Event → Option ServerState
  | .message connection message reads expired =>
    some (state.serve reads expired connection message).2
  | .close connection => some (state.setTransaction connection none)
  | .apply count records =>
    if 0 < count ∧ count ≤ state.writes.length ∧ Grouped (state.writes.take count) ∧
        records ≤ mostRecords (state.writes.take count) records then
      some { state with
        writes := state.writes.drop count
        log := state.log ++ List.replicate records .client }
    else none
  | .replicate => some { state with log := state.log ++ [.primary] }
  | .observeEpoch epoch => state.withFailover (fun failover => failover.observeEpoch epoch)
  | .stand => state.withFailover (fun failover => failover.stand.2)
  | .promote => state.withFailover Failover.promote
  | .stepDown => state.withFailover Failover.stepDown

def Step (state : ServerState) (event : Event) (after : ServerState) : Prop :=
  act state event = some after

/-- The condition on an event: a transaction that writes is committed only while the node accepts
    writes, and the role leaves primary only while nothing waits for the write worker. -/
@[reducible] def Guarded (state : ServerState) : Event → Prop
  | .message connection .commit _ expired =>
    expired = true ∨ (∀ transaction ∈ state.transactions connection,
      commitTransaction transaction = none) ∨ state.refusal = none
  | .message _ (.voteRequest epoch _) _ _ | .observeEpoch epoch =>
    state.writes = [] ∨ ∀ failover ∈ state.failover, epoch ≤ failover.epoch
  | .stepDown => state.writes = []
  | _ => True

instance (state : ServerState) (event : Event) : Decidable (Guarded state event) := by
  cases event with
  | message _ message _ _ => cases message <;> infer_instance
  | _ => infer_instance

/-! ## What a message can do -/

section Served

variable {state after : ServerState}

/-- Outside a transaction, a request reaches the write worker of a node that accepts writes. -/
theorem execute_outcome (state : ServerState) (message : Message) :
    (state.execute message).2 = state ∨ (state.refusal = none ∧ ∃ request,
      (state.execute message).2 = { state with writes := state.writes ++ [request] }) := by
  have hlimited : ∀ limit text, (state.limited limit text).2 = state := by
    intro limit text
    rw [limited]
    split_ifs <;> rfl
  cases message with
  | put | delete | putDocument | deleteDocument | createIndex | dropIndex =>
    cases hopen : state.refusal with
    | some => exact .inl (by rw [execute, mutatesStorage, if_pos rfl, hopen])
    | none => exact .inr ⟨rfl, _, by rw [execute, mutatesStorage, if_pos rfl, hopen]; rfl⟩
  | createCollection collection indexes =>
    cases hopen : state.refusal with
    | some => exact .inl (by rw [execute, mutatesStorage, if_pos rfl, hopen])
    | none =>
      by_cases hmany : maxDocumentIndexes < indexes.length
      · exact .inl (by simp only [execute, mutatesStorage, if_pos, hopen, hmany])
      · refine .inr ⟨rfl, .document (.createCollection collection indexes), ?_⟩
        simp only [execute, mutatesStorage, if_pos, hopen, hmany, if_false]
        rfl
  | indexUpdate | begin | commit =>
    left
    simp only [execute]
    split <;> rfl
  | multiGet | listDocuments | queryDocuments | indexLookup => exact .inl (hlimited _ _)
  | scan =>
    left
    simp only [execute, mutatesStorage, Bool.false_eq_true, if_false]
    split_ifs <;> rfl
  | get | getDocument | subscribe | subscribeFrom | subscribeCollection
  | subscribeCollectionFrom | rollback | voteRequest => exact .inl rfl

/-- What a message does to a node. -/
inductive Served (state : ServerState) (expired : Bool) (connection : Nat) (message : Message) :
    ServerState → Prop where
  | kept (transactions : Nat → Option ConnectionTransaction) :
      Served state expired connection message { state with transactions := transactions }
  | submitted (request : WriteRequest) (h : state.refusal = none) :
      Served state expired connection message { state with writes := state.writes ++ [request] }
  | committed {transaction : ConnectionTransaction} {check : TransactionCheck}
      (transactions : Nat → Option ConnectionTransaction) (hmessage : message = .commit)
      (hexpired : expired = false) (hopen : state.transactions connection = some transaction)
      (hcheck : commitTransaction transaction = some check) :
      Served state expired connection message
        { state with
          transactions := transactions
          writes := state.writes ++ [.transaction check] }
  | voted {epoch durableLsn : Nat} {failover : Failover}
      (hmessage : message = .voteRequest epoch durableLsn) (h : state.failover = some failover) :
      Served state expired connection message
        { state with
          failover := some (failover.considerVote epoch durableLsn state.log.length).2 }

/-- **SERVE**: what serving one message does to the state. -/
theorem serve_served (state : ServerState) (reads : Reads) (expired : Bool) (connection : Nat)
    (message : Message) :
    Served state expired connection message
      (state.serve reads expired connection message).2 := by
  fun_cases serve state reads expired connection message with
  | case2 epoch durableLsn _ failover hfailover _ voted hvote =>
    have hvoted : voted = (failover.considerVote epoch durableLsn state.log.length).2 := by
      rw [hvote]
    subst hvoted
    exact .voted rfl hfailover
  | case3 start | case4 start =>
    rw [stream]
    split_ifs <;> exact .kept state.transactions
  | case7 | case8 | case9 | case11 | case17 => exact .kept _
  | case10 _ hopen _ hexpired _ hcheck =>
    exact .committed _ rfl (Bool.eq_false_iff.mpr hexpired) hopen hcheck
  | case18 message =>
    -- outside a transaction, and nothing the connection itself answers
    rcases execute_outcome state message with hkept | ⟨hopen, request, hsubmitted⟩
    · rw [hkept]
      exact .kept state.transactions
    · rw [hsubmitted]
      exact .submitted request hopen
  | case1 | case5 | case6 | case12 | case13 | case14 | case15 | case16 =>
    exact .kept state.transactions

theorem Step.served {connection : Nat} {message : Message} {reads : Reads} {expired : Bool}
    (h : Step state (.message connection message reads expired) after) :
    Served state expired connection message after := by
  cases h
  exact serve_served state reads expired connection message

end Served

/-! ## A node that follows adds nothing -/

section Waiting

variable {state after : ServerState} {failover : Failover}

/-- Nothing waits for the write worker of a node that refuses writes. -/
def Waiting (state : ServerState) : Prop := state.refusal ≠ none → state.writes = []

theorem refusal_none_iff (h : state.failover = some failover) :
    state.refusal = none ↔ failover.role = .primary := by
  rw [refusal, h]
  cases hrole : failover.role with
  | primary => simp [hrole]
  | follower => simp [hrole]

/-- A change of the failover state, which keeps a primary or finds nothing waiting. -/
theorem Waiting.changed {changed : Failover} (h : Waiting state)
    (hfailover : state.failover = some failover)
    (hrole : state.writes = [] ∨ (failover.role = .primary → changed.role = .primary)) :
    Waiting { state with failover := some changed } := by
  intro hrefuses
  rcases hrole with hempty | hrole
  · exact hempty
  · refine h (fun hopen => hrefuses ?_)
    exact (refusal_none_iff rfl).mpr (hrole ((refusal_none_iff hfailover).mp hopen))

theorem Waiting.withFailover {change : Failover → Failover} (h : Waiting state)
    (hstep : state.withFailover change = some after)
    (hrole : state.writes = [] ∨ ∀ failover ∈ state.failover,
      failover.role = .primary → (change failover).role = .primary) : Waiting after := by
  obtain ⟨failover, hfailover, rfl⟩ := Option.map_eq_some_iff.mp hstep
  exact h.changed hfailover (hrole.imp id (fun hrole => hrole failover hfailover))

/-- A guarded step leaves nothing waiting where writes are refused. -/
theorem Waiting.step {event : Event} (h : Waiting state) (hguard : Guarded state event)
    (hstep : Step state event after) : Waiting after := by
  cases event with
  | message =>
    cases hstep.served with
    | kept => exact h
    | submitted _ hopen => exact fun hrefuses => absurd hopen hrefuses
    | committed _ hmessage hexpired hopen hcheck =>
      subst hmessage
      -- the guard leaves a node that accepts writes
      rcases hguard with hlate | hnothing | haccepts
      · cases hexpired.symm.trans hlate
      · cases (hnothing _ hopen).symm.trans hcheck
      · exact fun hrefuses => absurd haccepts hrefuses
    | @voted _ _ failover hmessage hfailover =>
      subst hmessage
      refine h.changed hfailover (hguard.imp id (fun hold hprimary => ?_))
      have hseen := hold failover hfailover
      rw [Failover.considerVote, Failover.observeEpoch, if_pos hseen]
      exact (Failover.decideVote_same hseen).2.trans hprimary
  | close =>
    cases hstep
    exact h
  | apply count =>
    rw [Step, act] at hstep
    split_ifs at hstep
    cases hstep
    intro hrefuses
    show state.writes.drop count = []
    rw [h hrefuses, List.drop_nil]
  | replicate =>
    cases hstep
    exact h
  | observeEpoch =>
    refine h.withFailover hstep (hguard.imp id (fun hold failover hfailover hprimary => ?_))
    rw [Failover.observeEpoch, if_pos (hold failover hfailover)]
    exact hprimary
  | stand => exact h.withFailover hstep (.inr (fun _ _ hprimary => hprimary))
  | promote => exact h.withFailover hstep (.inr (fun _ _ _ => rfl))
  | stepDown => exact h.withFailover hstep (.inl hguard)

end Waiting

/-- **ORIGIN**: while a node refuses writes, its log grows by records of its primary only. -/
theorem only_primary_originates {start state after : ServerState} {events : List Event}
    {event : Event} (hstart : start.writes = [])
    (hrun : Run Step Guarded start events state) (hstep : Step state event after)
    (hrefuses : state.refusal ≠ none) :
    after.log = state.log ∨ (event = .replicate ∧ after.log = state.log ++ [.primary]) := by
  have hwaiting : Waiting state :=
    hrun.invariant (fun h hguard hstep => h.step hguard hstep) (fun _ => hstart)
  cases event with
  | message =>
    cases hstep.served <;> exact .inl rfl
  | close =>
    cases hstep
    exact .inl rfl
  | apply =>
    rw [Step, act, hwaiting hrefuses] at hstep
    split_ifs at hstep with hguard
    exact absurd hguard.1 (not_lt.mpr hguard.2.1)
  | replicate =>
    cases hstep
    exact .inr ⟨rfl, rfl⟩
  | observeEpoch | stand | promote | stepDown =>
    obtain ⟨failover, -, rfl⟩ := Option.map_eq_some_iff.mp hstep
    exact .inl rfl

/-- What an engine without rows answers. -/
def noReads : Reads :=
  ⟨fun _ => .ok none, fun _ _ _ => .ok [], fun _ _ _ => .error .indexNotFound⟩

/-- The primary of a cluster at epoch 0. -/
def startedPrimary : ServerState := ⟨some (.new ⟨0, 0⟩ true), false, fun _ => none, [], []⟩

/-- A primary that is deposed once its put is applied refuses the next one. -/
theorem only_primary_originates_deposed :
    ∃ state after, Run Step Guarded startedPrimary
        [.message 0 (.put [107] [118]) noReads false, .apply 1 1, .observeEpoch 1] state ∧
      Step state (.message 0 (.put [107] [119]) noReads false) after ∧
      state.refusal ≠ none ∧ after.log = state.log := by
  obtain ⟨state, hrun, hrefuses⟩ :
      ∃ state, Run Step Guarded startedPrimary
          [.message 0 (.put [107] [118]) noReads false, .apply 1 1, .observeEpoch 1] state ∧
        state.refusal ≠ none :=
    exists_run act id (by decide +kernel)
  have hstep : Step state (.message 0 (.put [107] [119]) noReads false) _ := rfl
  refine ⟨state, _, hrun, hstep, hrefuses, ?_⟩
  rcases only_primary_originates rfl hrun hstep hrefuses with hsame | ⟨hevent, -⟩
  · exact hsame
  · cases hevent

/-- A node that was started to follow a primary. -/
def startedReplica : ServerState := ⟨none, true, fun _ => none, [], []⟩

/-- **A RECORD OF ITS OWN**: on a read-only replica a transaction is opened, written to, committed
    and logged. -/
theorem replica_commits_transaction :
    ∃ state, Run Step (fun _ _ => True) startedReplica
        [.message 0 .begin noReads false, .message 0 (.put [107] [118]) noReads false,
          .message 0 .commit noReads false, .apply 1 1] state ∧
      state.refusal ≠ none ∧ state.log = [.client] :=
  exists_run act id (by decide +kernel)

end ServerState

end Vyrn
