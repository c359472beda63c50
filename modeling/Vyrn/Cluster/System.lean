import Vyrn.Server.Failover

/-!
# A cluster with automatic failover

The members of a cluster as one transition system: clients write at a primary, streams carry its
epoch and records to the members that joined it, followers append, sync and acknowledge, a member
that was started as a replica may stand for election, and a process may crash, which loses the log
past its last sync. What is in flight is handled by an event of its own, in any order, or never.

A handler that gives a lock back between two of its steps is as many events, and what it carries
from one to the next is kept in the cluster: the LSN a vote handler read (`handlers`), the calls of
`observe_epoch` that stored an epoch and have not yet demoted (`deposing`), the write that was let
in and not yet appended (`queue`), the quorum that was reached before the sync (`reached`), the
epoch frame that passed the fence (`compared`) and the phase of each stream. Fields that no handler
reads say what happened: `term`, `grants`, `won`, `acted`, `answered`, and the LSN up to which a
member's log was counted for a write (`vouched`).
-/

namespace Vyrn

open Function (update)
open List

/-- A candidacy; its LSN is read after the epoch was persisted. -/
structure Candidacy where
  epoch : Nat
  durableLsn : Option Nat
  votes : List String
  deriving DecidableEq, Repr

structure VoteRequest where
  candidate : String
  epoch : Nat
  durableLsn : Nat
  deriving DecidableEq, Repr

/-- A vote handler in flight: the LSN it read first, and its decision once that is taken. -/
structure Handler where
  voter : String
  request : VoteRequest
  ownLsn : Nat
  granted : Option Bool
  deriving DecidableEq, Repr

/-- The answer of a voter, with the epoch the voter has reached. -/
structure VoteResponse where
  voter : String
  candidate : String
  epoch : Nat
  granted : Bool
  peerEpoch : Nat
  deriving DecidableEq, Repr

structure Grant where
  voter : String
  epoch : Nat
  candidate : String
  deriving DecidableEq, Repr

/-- The vote a handler decides on. -/
def Handler.grant (handler : Handler) : Grant :=
  ⟨handler.voter, handler.request.epoch, handler.request.candidate⟩

/-- What a primary sends on a stream. A record frame carries the LSN and the bytes; `term` is the
    epoch its sender led in. -/
inductive Frame (R : Type) where
  | primaryEpoch (epoch : Nat)
  | record (lsn : Nat) (bytes : R) (term : Nat)
  deriving DecidableEq, Repr

def Frame.lsn {R : Type} : Frame R → Nat
  | .primaryEpoch _ => 0
  | .record lsn _ _ => lsn

/-- The epoch a frame announces, or the one its sender led in. -/
def Frame.tag {R : Type} : Frame R → Nat
  | .primaryEpoch epoch => epoch
  | .record _ _ term => term

/-- How far the primary's end of a stream is: the hello is answered, the WAL files are being sent,
    the stream is registered, or it is registered and a heartbeat has read the role but not yet the
    epoch. -/
inductive Phase where
  | joined
  | catchUp
  | live
  | beating
  deriving DecidableEq, Repr

/-- One connection: the offered first LSN, the next LSN the primary sends, the frames and the
    acknowledgements that are sent and not yet handled, and whether the primary's end is there. -/
structure Stream (R : Type) where
  primary : String
  replica : String
  phase : Phase
  slot : Nat
  first : Nat
  next : Nat
  frames : List (Frame R)
  acks : List Nat
  alive : Bool
  deriving DecidableEq, Repr

/-- The stream's acknowledgements are counted. -/
def Stream.registered {R : Type} (st : Stream R) : Bool :=
  st.alive && (st.phase == .live || st.phase == .beating)

structure Cluster (R : Type) where
  failover : String → Failover
  deposing : String → Nat
  standby : String → Bool
  term : String → Nat
  candidacy : String → Option Candidacy
  requests : List VoteRequest
  handlers : List Handler
  responses : List VoteResponse
  grants : List Grant
  won : List (Nat × String)
  acted : List (Nat × String)
  queue : String → List R
  log : String → List R
  synced : String → Nat
  oldest : String → Nat
  pending : String → List Nat
  reached : String → List Nat
  answered : List (Nat × R)
  vouched : String → Nat
  replication : String → Replication
  owner : String → Nat → String
  streams : List (Stream R)
  upstream : String → Option Nat
  compared : String → Bool
  owed : String → Option (Nat × Nat)

namespace Cluster

inductive Event (R : Type) where
  | queue (member : String) (record : R)
  | write (member : String)
  | sync (member : String)
  | quorum (member : String) (lsn : Nat)
  | answer (member : String) (lsn : Nat)
  | prune (member : String) (oldest : Nat)
  | restart (member : String) (asPrimary : Bool)
  | stand (member : String)
  | solicit (member : String)
  | ask (voter : String) (request : VoteRequest)
  | observe (member : String) (epoch : Nat)
  | demote (member : String)
  | vote (handler : Handler)
  | respond (handler : Handler)
  | count (candidate : String) (response : VoteResponse)
  | giveUp (candidate : String)
  | promote (candidate : String)
  | stepDown (member : String)
  | join (replica primary : String)
  | announce (id : Nat)
  | send (id lsn : Nat)
  | register (id : Nat)
  | beat (id : Nat)
  | receive (replica : String)
  | accept (replica : String)
  | fill (replica : String)
  | acknowledge (replica : String)
  | deliver (id : Nat)
  | hangUp (replica : String)
  | drop (id : Nat)
  deriving DecidableEq, Repr

variable {R : Type} {config : Membership} {initial primary : String}

/-! ## The handlers -/

/-- The write worker appends the first write in the queue; the role was looked at when the write
    was let in. -/
def write (s : Cluster R) (member : String) (record : R) (rest : List R) : Cluster R :=
  { s with
    queue := update s.queue member rest
    log := update s.log member (s.log member ++ [record])
    pending := update s.pending member (s.pending member ++ [(s.log member).length + 1]) }

/-- The flush worker answers a write that is synced and has its quorum, whatever the role. -/
def answer (s : Cluster R) (member : String) (lsn : Nat) (record : R) : Cluster R :=
  { s with
    pending := update s.pending member ((s.pending member).filter (fun n => n != lsn))
    answered := s.answered ++ [(lsn, record)]
    vouched := update s.vouched member (max (s.vouched member) lsn)
    acted := s.acted ++ [((s.failover member).epoch, member)] }

def closeStreamsOf (member : String) (streams : List (Stream R)) : List (Stream R) :=
  streams.map (fun st => if st.primary = member then { st with alive := false } else st)

/-- A crash keeps what was synced and the persisted epochs; the new process starts in the
    configured role, and only one that starts as a replica has the credentials to stand. -/
def restart (minAcks : Nat) (s : Cluster R) (member : String) (asPrimary : Bool) : Cluster R :=
  { s with
    failover := update s.failover member (Failover.new (s.failover member).epochs asPrimary)
    deposing := update s.deposing member 0
    standby := update s.standby member (!asPrimary)
    term := update s.term member (if asPrimary then 0 else s.term member)
    candidacy := update s.candidacy member none
    handlers := s.handlers.filter (fun handler => handler.voter != member)
    queue := update s.queue member []
    log := update s.log member ((s.log member).take (s.synced member))
    pending := update s.pending member []
    reached := update s.reached member []
    replication := update s.replication member (Replication.new minAcks)
    owner := update s.owner member (fun _ => "")
    streams := closeStreamsOf member s.streams
    upstream := update s.upstream member none
    compared := update s.compared member false
    owed := update s.owed member none }

/-- A candidacy begins: the new epoch is persisted, with the candidate's own vote. -/
def stand (s : Cluster R) (member : String) : Cluster R :=
  let epoch := (s.failover member).stand.1
  { s with
    failover := update s.failover member (s.failover member).stand.2
    candidacy := update s.candidacy member (some ⟨epoch, none, [member]⟩)
    grants := s.grants ++ [⟨member, epoch, member⟩] }

/-- The candidate reads its LSN and asks the other members. -/
def solicit (s : Cluster R) (member : String) (candidacy : Candidacy) : Cluster R :=
  { s with
    candidacy := update s.candidacy member
      (some { candidacy with durableLsn := some (s.log member).length })
    requests := s.requests ++ [⟨member, candidacy.epoch, (s.log member).length⟩] }

/-- The first half of `observe_epoch`: the epoch is stored under the epochs lock. -/
def observe (s : Cluster R) (member : String) (epoch : Nat) : Cluster R :=
  { s with
    failover := update s.failover member ((s.failover member).adopt epoch)
    deposing := update s.deposing member (s.deposing member + 1) }

/-- The second half: the role changes under its own lock. -/
def demote (s : Cluster R) (member : String) : Cluster R :=
  { s with
    failover := update s.failover member (s.failover member).demoteIfPrimary
    deposing := update s.deposing member (s.deposing member - 1) }

/-- The decision, by the LSN that was read when the request arrived. -/
def vote (s : Cluster R) (handler : Handler) : Cluster R :=
  let verdict := (s.failover handler.voter).decideVote handler.request.epoch
    handler.request.durableLsn handler.ownLsn
  { s with
    failover := update s.failover handler.voter verdict.2
    handlers := s.handlers.erase handler ++ [{ handler with granted := some verdict.1 }]
    grants := if verdict.1 then s.grants ++ [handler.grant] else s.grants }

/-- The answer carries the epoch the voter has by then. -/
def respond (s : Cluster R) (handler : Handler) (granted : Bool) : Cluster R :=
  { s with
    handlers := s.handlers.erase handler
    responses := s.responses ++ [⟨handler.voter, handler.request.candidate, handler.request.epoch,
      granted, (s.failover handler.voter).epoch⟩] }

/-- The candidate yields to a higher epoch, which it then observes, or counts a granted vote. -/
def count (s : Cluster R) (candidate : String) (candidacy : Candidacy) (response : VoteResponse) :
    Cluster R :=
  if candidacy.epoch < response.peerEpoch then
    { s with candidacy := update s.candidacy candidate none }
  else if response.granted = true ∧ response.voter ∉ candidacy.votes then
    { s with
      candidacy := update s.candidacy candidate
        (some { candidacy with votes := candidacy.votes ++ [response.voter] }) }
  else s

def promote (s : Cluster R) (candidate : String) (candidacy : Candidacy) : Cluster R :=
  { s with
    failover := update s.failover candidate (s.failover candidate).promote
    term := update s.term candidate candidacy.epoch
    candidacy := update s.candidacy candidate none
    won := s.won ++ [(candidacy.epoch, candidate)] }

/-- A stream that starts at `first`, not yet registered. -/
def openStream (s : Cluster R) (replica primary : String) (first : Nat) : Cluster R :=
  { s with
    streams := s.streams ++ [⟨primary, replica, .joined, 0, first, first, [], [], true⟩]
    upstream := update s.upstream replica (some s.streams.length)
    compared := update s.compared replica false
    owed := update s.owed replica none }

/-- A hello is answered by LSN alone. -/
def join (s : Cluster R) (replica primary : String) : Option (Cluster R) :=
  match decideJoin (s.log replica).length (s.log primary).length (s.oldest primary) with
  | .refuse _ => none
  | .stream first => some (s.openStream replica primary first)
  | .rebuild _ => some (s.openStream replica primary (s.oldest primary))

/-- After the catch-up the stream is registered and its acknowledgements are read. -/
def register (s : Cluster R) (id : Nat) (st : Stream R) : Cluster R :=
  { s with
    replication := update s.replication st.primary (s.replication st.primary).register.2
    owner := update s.owner st.primary
      (update (s.owner st.primary) (s.replication st.primary).nextReplica st.replica)
    streams := s.streams.set id
      { st with phase := .live, slot := (s.replication st.primary).nextReplica } }

/-- A stream that was registered is deregistered on every exit. -/
def close (s : Cluster R) (id : Nat) (st : Stream R) : Cluster R :=
  { s with
    replication := if st.registered then
        update s.replication st.primary ((s.replication st.primary).deregister st.slot)
      else s.replication
    streams := s.streams.set id { st with alive := false } }

/-- The epoch goes out first on every stream, and again as its heartbeat. -/
def announce (s : Cluster R) (id : Nat) (st : Stream R) : Cluster R :=
  { s with
    streams := s.streams.set id
      { st with
        phase := if st.phase = .joined then .catchUp else .live
        frames := st.frames ++ [.primaryEpoch (s.failover st.primary).epoch] }
    acted := s.acted ++ [((s.failover st.primary).epoch, st.primary)] }

/-- A heartbeat looks at the role first. -/
def beat (s : Cluster R) (id : Nat) (st : Stream R) : Cluster R :=
  if (s.failover st.primary).role = .primary then
    { s with streams := s.streams.set id { st with phase := .beating } }
  else s.close id st

def send (s : Cluster R) (id : Nat) (st : Stream R) (lsn : Nat) (record : R) : Cluster R :=
  { s with
    streams := s.streams.set id
      { st with
        next := lsn + 1
        frames := st.frames ++ [.record lsn record (s.term st.primary)] }
    acted := s.acted ++ [((s.failover st.primary).epoch, st.primary)] }

def hangUp (s : Cluster R) (replica : String) : Cluster R :=
  { s with
    upstream := update s.upstream replica none
    compared := update s.compared replica false
    owed := update s.owed replica none }

/-- The epoch frame is the fence; a record frame is applied when it is the next one, skipped when
    it is already there, and ends the stream when it leaves a gap. -/
def receive (s : Cluster R) (replica : String) (id : Nat) (st : Stream R) (rest : List (Frame R)) :
    Frame R → Cluster R
  | .primaryEpoch epoch =>
    if epoch < (s.failover replica).epoch then s.hangUp replica
    else { s with compared := update s.compared replica true }
  | .record lsn bytes term =>
    if lsn ≤ (s.log replica).length then
      { s with streams := s.streams.set id { st with frames := rest } }
    else if lsn = (s.log replica).length + 1 then
      { s with
        log := update s.log replica (s.log replica ++ [bytes])
        owed := update s.owed replica (some (lsn, term))
        streams := s.streams.set id { st with frames := rest } }
    else s.hangUp replica

/-- An epoch that passed the fence is observed. -/
def accept (s : Cluster R) (replica : String) (id : Nat) (st : Stream R) (rest : List (Frame R))
    (epoch : Nat) : Cluster R :=
  { s.observe replica epoch with
    compared := update s.compared replica false
    streams := s.streams.set id { st with frames := rest } }

/-- An applied record is acknowledged once it is synced. -/
def acknowledge (s : Cluster R) (replica : String) (id : Nat) (st : Stream R) (lsn : Nat) :
    Cluster R :=
  { s with
    streams := s.streams.set id { st with acks := st.acks ++ [lsn] }
    owed := update s.owed replica none
    vouched := update s.vouched replica (max (s.vouched replica) lsn) }

def deliver (s : Cluster R) (id : Nat) (st : Stream R) (lsn : Nat) (rest : List Nat) : Cluster R :=
  { s with
    replication := update s.replication st.primary
      ((s.replication st.primary).acknowledge st.slot lsn)
    streams := s.streams.set id { st with acks := rest } }

/-! ## The system -/

/-- One event, `none` where it cannot happen. -/
def act (config : Membership) (initial : String) (s : Cluster R) : Event R → Option (Cluster R)
  | .queue member record =>
    if member ∈ config.names ∧ (s.failover member).role = .primary then
      some { s with queue := update s.queue member (s.queue member ++ [record]) }
    else none
  | .write member =>
    match s.queue member with
    | [] => none
    | record :: rest => some (s.write member record rest)
  | .sync member =>
    some { s with synced := update s.synced member (s.log member).length }
  | .quorum member lsn =>
    if lsn ∈ s.pending member ∧ awaitQuorum lsn (s.replication member) [] = .ok () then
      some { s with reached := update s.reached member (s.reached member ++ [lsn]) }
    else none
  | .answer member lsn =>
    if member ∈ config.names ∧ lsn ∈ s.pending member ∧ lsn ∈ s.reached member ∧
        lsn ≤ s.synced member then
      (recordAt (s.log member) lsn).map (s.answer member lsn)
    else none
  | .prune member oldest => some { s with oldest := update s.oldest member oldest }
  | .restart member asPrimary =>
    if asPrimary = true → member = initial then some (restart config.minAcks s member asPrimary)
    else none
  | .stand member =>
    if member ∈ config.names ∧ s.standby member = true ∧
        (s.failover member).role = .follower ∧ s.candidacy member = none then
      some (s.stand member)
    else none
  | .solicit member =>
    (s.candidacy member).bind (fun candidacy =>
      if candidacy.durableLsn = none then some (s.solicit member candidacy) else none)
  | .ask voter request =>
    if voter ∈ config.names ∧ voter ≠ request.candidate ∧ request ∈ s.requests then
      some { s with handlers := s.handlers ++ [⟨voter, request, (s.log voter).length, none⟩] }
    else none
  | .observe member epoch =>
    -- a vote handler, or a candidate that yields
    if (∃ handler ∈ s.handlers, handler.voter = member ∧ handler.request.epoch = epoch) ∨
        ∃ response ∈ s.responses, response.candidate = member ∧ response.peerEpoch = epoch then
      some (s.observe member epoch)
    else none
  | .demote member => if 0 < s.deposing member then some (s.demote member) else none
  | .vote handler =>
    -- `observe_epoch` has returned, so the epoch is adopted
    if handler ∈ s.handlers ∧ handler.granted = none ∧
        handler.request.epoch ≤ (s.failover handler.voter).epoch then
      some (s.vote handler)
    else none
  | .respond handler =>
    if handler ∈ s.handlers then handler.granted.map (s.respond handler) else none
  | .count candidate response =>
    if response ∈ s.responses ∧ response.candidate = candidate then
      (s.candidacy candidate).bind (fun candidacy =>
        if candidacy.epoch = response.epoch then some (s.count candidate candidacy response)
        else none)
    else none
  | .giveUp candidate => some { s with candidacy := update s.candidacy candidate none }
  | .promote candidate =>
    (s.candidacy candidate).bind (fun candidacy =>
      if votesNeeded config.members.length ≤ candidacy.votes.length then
        some (s.promote candidate candidacy)
      else none)
  | .stepDown member =>
    some { s with failover := update s.failover member (s.failover member).stepDown }
  | .join replica primary =>
    if replica ∈ config.names ∧ primary ∈ config.names ∧ replica ≠ primary ∧
        s.standby replica = true ∧ (s.failover replica).role = .follower ∧
        s.upstream replica = none ∧ (s.failover primary).role = .primary then
      s.join replica primary
    else none
  | .announce id =>
    (s.streams[id]?).bind (fun st =>
      if st.alive = true ∧ (st.phase = .joined ∨ st.phase = .beating) then some (s.announce id st)
      else none)
  | .send id lsn =>
    -- the catch-up is contiguous; what was appended before the registration is not sent live
    (s.streams[id]?).bind (fun st =>
      if st.alive = true ∧ (st.phase = .catchUp ∧ lsn = st.next ∨
          st.phase = .live ∧ st.next ≤ lsn) then
        (recordAt (s.log st.primary) lsn).map (s.send id st lsn)
      else none)
  | .register id =>
    (s.streams[id]?).bind (fun st =>
      if st.alive = true ∧ st.phase = .catchUp then some (s.register id st) else none)
  | .beat id =>
    (s.streams[id]?).bind (fun st =>
      if st.alive = true ∧ st.phase = .live then some (s.beat id st) else none)
  | .receive replica =>
    (s.upstream replica).bind (fun id => (s.streams[id]?).bind (fun st =>
      match s.owed replica, s.compared replica, st.frames with
      | none, false, frame :: rest => some (s.receive replica id st rest frame)
      | _, _, _ => none))
  | .accept replica =>
    (s.upstream replica).bind (fun id => (s.streams[id]?).bind (fun st =>
      match s.owed replica, s.compared replica, st.frames with
      | none, true, .primaryEpoch epoch :: rest => some (s.accept replica id st rest epoch)
      | _, _, _ => none))
  | .fill replica =>
    (s.upstream replica).bind (fun id => (s.streams[id]?).bind (fun st =>
      if (s.log replica).length + 1 < st.first then
        (recordAt (s.log st.primary) ((s.log replica).length + 1)).map (fun record =>
          { s with log := update s.log replica (s.log replica ++ [record]) })
      else none))
  | .acknowledge replica =>
    (s.upstream replica).bind (fun id => (s.streams[id]?).bind (fun st =>
      (s.owed replica).bind (fun owed =>
        if owed.1 ≤ s.synced replica then some (s.acknowledge replica id st owed.1) else none)))
  | .deliver id =>
    (s.streams[id]?).bind (fun st =>
      match st.alive, st.phase, st.acks with
      | true, .live, lsn :: rest => some (s.deliver id st lsn rest)
      | _, _, _ => none)
  | .hangUp replica => some (s.hangUp replica)
  | .drop id =>
    (s.streams[id]?).bind (fun st => if st.alive then some (s.close id st) else none)

def Step (config : Membership) (initial : String) (s : Cluster R) (event : Event R)
    (t : Cluster R) : Prop :=
  act config initial s event = some t

/-! ## What an event can do -/

variable (config initial) (s : Cluster R) in
/-- The outcomes of the events, each with what held before it. -/
inductive Move : Event R → Cluster R → Prop where
  | queue {member record} : Move (.queue member record)
      { s with queue := update s.queue member (s.queue member ++ [record]) }
  | write {member record rest} : Move (.write member) (s.write member record rest)
  | sync {member} : Move (.sync member)
      { s with synced := update s.synced member (s.log member).length }
  | quorum {member lsn} (hquorum : awaitQuorum lsn (s.replication member) [] = .ok ()) :
      Move (.quorum member lsn)
        { s with reached := update s.reached member (s.reached member ++ [lsn]) }
  | answer {member lsn record} (hmember : member ∈ config.names)
      (hreached : lsn ∈ s.reached member) (hsynced : lsn ≤ s.synced member)
      (hrecord : recordAt (s.log member) lsn = some record) :
      Move (.answer member lsn) (s.answer member lsn record)
  | prune {member oldest} : Move (.prune member oldest)
      { s with oldest := update s.oldest member oldest }
  | restart {member asPrimary} (hconfigured : asPrimary = true → member = initial) :
      Move (.restart member asPrimary) (restart config.minAcks s member asPrimary)
  | stand {member} (hmember : member ∈ config.names)
      (hrole : (s.failover member).role = .follower) : Move (.stand member) (s.stand member)
  | solicit {member candidacy} (hcandidacy : s.candidacy member = some candidacy) :
      Move (.solicit member) (s.solicit member candidacy)
  | ask {voter request} (hmember : voter ∈ config.names) (hrequest : request ∈ s.requests) :
      Move (.ask voter request)
        { s with handlers := s.handlers ++ [⟨voter, request, (s.log voter).length, none⟩] }
  | observe {member epoch} : Move (.observe member epoch) (s.observe member epoch)
  | demote {member} : Move (.demote member) (s.demote member)
  | vote {handler} (hhandler : handler ∈ s.handlers)
      (hseen : handler.request.epoch ≤ (s.failover handler.voter).epoch) :
      Move (.vote handler) (s.vote handler)
  | respond {handler granted} (hhandler : handler ∈ s.handlers)
      (hgranted : handler.granted = some granted) :
      Move (.respond handler) (s.respond handler granted)
  | yield {response} : Move (.count response.candidate response)
      { s with candidacy := update s.candidacy response.candidate none }
  | count {response candidacy} (hresponse : response ∈ s.responses)
      (hcandidacy : s.candidacy response.candidate = some candidacy)
      (hepoch : candidacy.epoch = response.epoch)
      (hvote : response.granted = true ∧ response.voter ∉ candidacy.votes) :
      Move (.count response.candidate response) { s with
        candidacy := update s.candidacy response.candidate
          (some { candidacy with votes := candidacy.votes ++ [response.voter] }) }
  | ignore {response} : Move (.count response.candidate response) s
  | giveUp {candidate} : Move (.giveUp candidate)
      { s with candidacy := update s.candidacy candidate none }
  | promote {candidate candidacy} (hcandidacy : s.candidacy candidate = some candidacy)
      (hvotes : votesNeeded config.members.length ≤ candidacy.votes.length) :
      Move (.promote candidate) (s.promote candidate candidacy)
  | stepDown {member} : Move (.stepDown member)
      { s with failover := update s.failover member (s.failover member).stepDown }
  | join {replica primary first} (hreplica : replica ∈ config.names)
      (hprimary : primary ∈ config.names) (hother : replica ≠ primary) :
      Move (.join replica primary) (s.openStream replica primary first)
  | announce {id st} (hst : s.streams[id]? = some st) (halive : st.alive = true)
      (hphase : st.phase = .joined ∨ st.phase = .beating) : Move (.announce id) (s.announce id st)
  | send {id lsn st record} (hst : s.streams[id]? = some st)
      (halive : st.alive = true) (hphase : st.phase ≠ .joined)
      (hrecord : recordAt (s.log st.primary) lsn = some record) :
      Move (.send id lsn) (s.send id st lsn record)
  | register {id st} (hst : s.streams[id]? = some st)
      (hphase : st.phase = .catchUp) : Move (.register id) (s.register id st)
  | beat {id st} (hst : s.streams[id]? = some st) (halive : st.alive = true)
      (hphase : st.phase = .live) :
      Move (.beat id) { s with streams := s.streams.set id { st with phase := .beating } }
  | quit {id st} (hst : s.streams[id]? = some st) : Move (.beat id) (s.close id st)
  | cut {replica} : Move (.receive replica) (s.hangUp replica)
  | compare {replica id epoch st rest}
      (hup : s.upstream replica = some id) (hst : s.streams[id]? = some st)
      (hframes : st.frames = .primaryEpoch epoch :: rest)
      (hepoch : (s.failover replica).epoch ≤ epoch) :
      Move (.receive replica) { s with compared := update s.compared replica true }
  | skip {replica id lsn term st bytes rest}
      (hst : s.streams[id]? = some st) (hframes : st.frames = .record lsn bytes term :: rest) :
      Move (.receive replica) { s with streams := s.streams.set id { st with frames := rest } }
  | apply {replica id lsn term st bytes rest}
      (hup : s.upstream replica = some id) (hst : s.streams[id]? = some st)
      (hframes : st.frames = .record lsn bytes term :: rest)
      (hnext : lsn = (s.log replica).length + 1) : Move (.receive replica) { s with
        log := update s.log replica (s.log replica ++ [bytes])
        owed := update s.owed replica (some (lsn, term))
        streams := s.streams.set id { st with frames := rest } }
  | accept {replica id epoch st rest}
      (hup : s.upstream replica = some id) (hst : s.streams[id]? = some st)
      (howed : s.owed replica = none) (hcompared : s.compared replica = true)
      (hframes : st.frames = .primaryEpoch epoch :: rest) :
      Move (.accept replica) (s.accept replica id st rest epoch)
  | fill {replica id st record}
      (hup : s.upstream replica = some id) (hst : s.streams[id]? = some st)
      (hrecord : recordAt (s.log st.primary) ((s.log replica).length + 1) = some record) :
      Move (.fill replica) { s with log := update s.log replica (s.log replica ++ [record]) }
  | acknowledge {replica id lsn term st}
      (hup : s.upstream replica = some id) (hst : s.streams[id]? = some st)
      (howed : s.owed replica = some (lsn, term)) (hsynced : lsn ≤ s.synced replica) :
      Move (.acknowledge replica) (s.acknowledge replica id st lsn)
  | deliver {id lsn st rest} (hst : s.streams[id]? = some st)
      (hopen : st.registered = true) (hacks : st.acks = lsn :: rest) :
      Move (.deliver id) (s.deliver id st lsn rest)
  | hangUp {replica} : Move (.hangUp replica) (s.hangUp replica)
  | drop {id st} (hst : s.streams[id]? = some st) : Move (.drop id) (s.close id st)

variable {s t : Cluster R} {st : Stream R} {event : Event R}

/-- A hello that is not refused opens a stream. -/
theorem join_inv {replica : String} (h : s.join replica primary = some t) :
    ∃ first, t = s.openStream replica primary first := by
  rw [join] at h
  split at h
  · cases h
  all_goals
    cases h
    exact ⟨_, rfl⟩

/-- What an event on a stream or a candidacy needs of it, and what it does with it. -/
theorem guarded_inv {α : Type} {o : Option α} {p : α → Prop} [DecidablePred p] {f : α → Cluster R}
    (h : o.bind (fun a => if p a then some (f a) else none) = some t) :
    ∃ a, o = some a ∧ p a ∧ t = f a := by
  obtain ⟨a, ha, h⟩ := Option.bind_eq_some_iff.mp h
  split_ifs at h with hguard
  exact ⟨a, ha, hguard, (Option.some.inj h).symm⟩

/-- **INVERSION**: every event is one of the outcomes. -/
theorem Step.move (h : Step config initial s event t) : Move config initial s event t := by
  rw [Step] at h
  cases event with
  | sync | prune | giveUp | stepDown | hangUp =>
    cases h
    constructor
  | queue | quorum | stand | ask | observe | demote | vote =>
    rw [act] at h
    split_ifs at h with hguard
    cases h
    constructor <;> simp only [hguard]
  | restart =>
    rw [act] at h
    split_ifs at h with hguard
    cases h
    exact .restart hguard
  | write =>
    rw [act] at h
    split at h <;> cases h
    exact .write
  | answer =>
    rw [act] at h
    split_ifs at h with hguard
    obtain ⟨record, hrecord, rfl⟩ := Option.map_eq_some_iff.mp h
    exact .answer hguard.1 hguard.2.2.1 hguard.2.2.2 hrecord
  | solicit =>
    obtain ⟨candidacy, hcandidacy, -, rfl⟩ := guarded_inv h
    exact .solicit hcandidacy
  | respond =>
    rw [act] at h
    split_ifs at h with hhandler
    obtain ⟨granted, hgranted, rfl⟩ := Option.map_eq_some_iff.mp h
    exact .respond hhandler hgranted
  | count =>
    rw [act] at h
    split_ifs at h with hguard
    obtain ⟨hresponse, rfl⟩ := hguard
    obtain ⟨candidacy, hcandidacy, hepoch, rfl⟩ := guarded_inv h
    rw [Cluster.count]
    split_ifs with _ hvote
    · exact .yield
    · exact .count hresponse hcandidacy hepoch hvote
    · exact .ignore
  | promote =>
    obtain ⟨candidacy, hcandidacy, hvotes, rfl⟩ := guarded_inv h
    exact .promote hcandidacy hvotes
  | join =>
    rw [act] at h
    split_ifs at h with hguard
    obtain ⟨first, rfl⟩ := join_inv h
    exact .join hguard.1 hguard.2.1 hguard.2.2.1
  | announce =>
    obtain ⟨st, hst, ⟨halive, hphase⟩, rfl⟩ := guarded_inv h
    exact .announce hst halive hphase
  | send =>
    obtain ⟨st, hst, h⟩ := Option.bind_eq_some_iff.mp h
    split_ifs at h with hguard
    obtain ⟨record, hrecord, rfl⟩ := Option.map_eq_some_iff.mp h
    refine .send hst hguard.1 (fun hjoined => ?_) hrecord
    rw [hjoined] at hguard
    rcases hguard.2 with ⟨hphase, -⟩ | ⟨hphase, -⟩ <;> cases hphase
  | register =>
    obtain ⟨st, hst, hguard, rfl⟩ := guarded_inv h
    exact .register hst hguard.2
  | beat =>
    obtain ⟨st, hst, ⟨halive, hphase⟩, rfl⟩ := guarded_inv h
    rw [Cluster.beat]
    split_ifs
    · exact .beat hst halive hphase
    · exact .quit hst
  | receive =>
    obtain ⟨id, hup, h⟩ := Option.bind_eq_some_iff.mp h
    obtain ⟨st, hst, h⟩ := Option.bind_eq_some_iff.mp h
    split at h
    · next frame rest _ _ hframes =>
        cases h
        cases frame with
        | primaryEpoch =>
          rw [Cluster.receive]
          split_ifs with hstale
          · exact .cut
          · exact .compare hup hst hframes (Nat.le_of_not_lt hstale)
        | record =>
          rw [Cluster.receive]
          split_ifs with _ hnext
          · exact .skip hst hframes
          · exact .apply hup hst hframes hnext
          · exact .cut
    · cases h
  | accept =>
    obtain ⟨id, hup, h⟩ := Option.bind_eq_some_iff.mp h
    obtain ⟨st, hst, h⟩ := Option.bind_eq_some_iff.mp h
    split at h
    · next howed hcompared hframes =>
        cases h
        exact .accept hup hst howed hcompared hframes
    · cases h
  | fill =>
    obtain ⟨id, hup, h⟩ := Option.bind_eq_some_iff.mp h
    obtain ⟨st, hst, h⟩ := Option.bind_eq_some_iff.mp h
    split_ifs at h with hgap
    obtain ⟨record, hrecord, rfl⟩ := Option.map_eq_some_iff.mp h
    exact .fill hup hst hrecord
  | acknowledge =>
    obtain ⟨id, hup, h⟩ := Option.bind_eq_some_iff.mp h
    obtain ⟨st, hst, h⟩ := Option.bind_eq_some_iff.mp h
    obtain ⟨⟨lsn, term⟩, howed, hsynced, rfl⟩ := guarded_inv h
    exact .acknowledge hup hst howed hsynced
  | deliver =>
    obtain ⟨st, hst, h⟩ := Option.bind_eq_some_iff.mp h
    split at h
    · next halive hphase hacks =>
        cases h
        exact .deliver hst (by rw [Stream.registered, halive, hphase]; rfl) hacks
    · cases h
  | drop =>
    obtain ⟨st, hst, -, rfl⟩ := guarded_inv h
    exact .drop hst

/-! ## Streams and their ends -/

section Wiring

variable {config : Membership} {initial : String} {id first : Nat} {member name replica : String}
  {streams : List (Stream R)}

/-- A stream connects two members, and the stream a member follows is its own. -/
structure Wired (config : Membership) (s : Cluster R) : Prop where
  ends : ∀ st ∈ s.streams, st.primary ∈ config.names ∧ st.replica ∈ config.names ∧
    st.replica ≠ st.primary
  taken : ∀ {name : String} {id : Nat} {st : Stream R}, s.upstream name = some id →
    s.streams[id]? = some st → st.replica = name
  below : ∀ {name : String} {id : Nat}, s.upstream name = some id → id < s.streams.length

/-- What holds of every stream and of the new one holds after the change. -/
theorem forall_mem_set {p : Stream R → Prop} {after : Stream R} (h : ∀ st ∈ streams, p st)
    (hafter : p after) : ∀ st ∈ streams.set id after, p st := by
  intro st hst
  rcases mem_or_eq_of_mem_set hst with hst | rfl
  · exact h st hst
  · exact hafter

theorem Wired.set (h : Wired config s)
    (hst : s.streams[id]? = some st) (after : Stream R) (hprimary : after.primary = st.primary)
    (hreplica : after.replica = st.replica) :
    Wired config { s with streams := s.streams.set id after } := by
  refine ⟨?_, ?_, ?_⟩
  · refine forall_mem_set h.ends ?_
    rw [hprimary, hreplica]
    exact h.ends st (mem_of_getElem? hst)
  · intro name id' st' hup hst'
    have hst' : (s.streams.set id after)[id']? = some st' := hst'
    by_cases hid : id = id'
    · subst hid
      rw [getElem?_set_self (h.below hup)] at hst'
      rw [← Option.some.inj hst', hreplica]
      exact h.taken hup hst
    · rw [getElem?_set_ne hid] at hst'
      exact h.taken hup hst'
  · intro name id' hup
    show id' < (s.streams.set id after).length
    rw [length_set]
    exact h.below hup

/-- What holds of every member holds after one of them is updated, if it holds of the update. -/
theorem forall_update {α : Type} (f : String → α) {a : α} (p : String → α → Prop)
    (hself : p member a) (hothers : ∀ other, p other (f other)) :
    ∀ other, p other (update f member a other) :=
  (Function.forall_update_iff f p).mpr ⟨hself, fun other _ => hothers other⟩

/-- What is left when a member gives something up is another member's. -/
theorem update_none {α : Type} {f : String → Option α} {value : α}
    (h : update f member none name = some value) : name ≠ member ∧ f name = some value := by
  by_cases hname : name = member
  · rw [hname, Function.update_self] at h
    cases h
  · rw [Function.update_of_ne hname] at h
    exact ⟨hname, h⟩

theorem Wired.hangUp (h : Wired config s) (replica : String) : Wired config (s.hangUp replica) :=
  { h with
    taken := fun hup => h.taken (update_none hup).2
    below := fun hup => h.below (update_none hup).2 }

theorem mem_closeStreamsOf (h : st ∈ closeStreamsOf member streams) :
    ∃ old ∈ streams, st.primary = old.primary ∧ st.replica = old.replica ∧
      st.frames = old.frames ∧ (st.alive = true → st = old ∧ old.primary ≠ member) := by
  obtain ⟨old, hold, rfl⟩ := mem_map.mp h
  refine ⟨old, hold, ?_⟩
  split_ifs with hmember
  · exact ⟨rfl, rfl, rfl, nofun⟩
  · exact ⟨rfl, rfl, rfl, fun _ => ⟨rfl, hmember⟩⟩

theorem getElem?_closeStreamsOf (h : (closeStreamsOf member streams)[id]? = some st) :
    ∃ old, streams[id]? = some old ∧ st.primary = old.primary ∧ st.replica = old.replica ∧
      st.phase = old.phase ∧ st.frames = old.frames := by
  rw [closeStreamsOf, getElem?_map] at h
  obtain ⟨old, hold, rfl⟩ := Option.map_eq_some_iff.mp h
  refine ⟨old, hold, ?_⟩
  split_ifs <;> exact ⟨rfl, rfl, rfl, rfl⟩

theorem Wired.restart {member : String} {asPrimary : Bool}
    (h : Wired config s) : Wired config (Cluster.restart config.minAcks s member asPrimary) := by
  refine ⟨?_, ?_, ?_⟩
  · intro st hst
    obtain ⟨old, hold, hprimary, hreplica, -⟩ := mem_closeStreamsOf hst
    rw [hprimary, hreplica]
    exact h.ends old hold
  · intro name id st hup hst
    obtain ⟨old, hold, -, hreplica, -⟩ := getElem?_closeStreamsOf hst
    rw [hreplica]
    exact h.taken (update_none hup).2 hold
  · intro name id hup
    show id < (closeStreamsOf member s.streams).length
    rw [closeStreamsOf, length_map]
    exact h.below (update_none hup).2

/-- After a join a member follows the new stream, or the one it followed. -/
theorem upstream_open (h : Wired config s)
    (hup : (s.openStream replica primary first).upstream name = some id) :
    (name = replica ∧ (s.openStream replica primary first).streams[id]? =
        some ⟨primary, replica, .joined, 0, first, first, [], [], true⟩) ∨
      (name ≠ replica ∧ s.upstream name = some id ∧
        (s.openStream replica primary first).streams[id]? = s.streams[id]?) := by
  have hup : update s.upstream replica (some s.streams.length) name = some id := hup
  by_cases hname : name = replica
  · rw [hname, Function.update_self] at hup
    cases hup
    refine .inl ⟨hname, ?_⟩
    show (s.streams ++ [_])[s.streams.length]? = _
    rw [getElem?_append_right le_rfl, Nat.sub_self]
    rfl
  · rw [Function.update_of_ne hname] at hup
    exact .inr ⟨hname, hup, getElem?_append_left (h.below hup)⟩

theorem Wired.open (h : Wired config s) (hreplica : replica ∈ config.names)
    (hprimary : primary ∈ config.names) (hother : replica ≠ primary) :
    Wired config (s.openStream replica primary first) := by
  refine ⟨forall_mem_append.mpr
    ⟨h.ends, forall_mem_singleton.mpr ⟨hprimary, hreplica, hother⟩⟩, ?_, ?_⟩
  · intro name id st hup hst
    rcases upstream_open h hup with ⟨hname, hnew⟩ | ⟨-, hold, hsame⟩
    · rw [hname, ← Option.some.inj (hnew.symm.trans hst)]
    · exact h.taken hold (hsame.symm.trans hst)
  · intro name id hup
    rcases upstream_open h hup with ⟨-, hnew⟩ | ⟨-, hold, -⟩
    · exact (List.getElem?_eq_some_iff.mp hnew).1
    · show id < (s.streams ++ [_]).length
      rw [length_append]
      exact Nat.lt_add_right _ (h.below hold)

/-- A step keeps the ends of the streams, and whose they are. -/
theorem Wired.step (h : Wired config s) (hstep : Step config initial s event t) :
    Wired config t := by
  cases hstep.move with
  | queue | write | sync | quorum | answer | prune | stand | solicit | ask | observe | demote | vote
  | respond | yield | count | ignore | giveUp | promote | stepDown | compare | fill =>
    exact { h with }
  | restart => exact h.restart
  | join hreplica hprimary hother => exact h.open hreplica hprimary hother
  | @announce _ st hst =>
    exact { h.set hst { st with phase := _, frames := st.frames ++ [_] } rfl rfl with }
  | @send _ lsn st _ hst =>
    exact { h.set hst { st with next := lsn + 1, frames := st.frames ++ [_] } rfl rfl with }
  | @register _ st hst => exact { h.set hst { st with phase := .live, slot := _ } rfl rfl with }
  | @beat _ st hst => exact h.set hst { st with phase := .beating } rfl rfl
  | @skip _ _ _ _ st _ rest hst => exact h.set hst { st with frames := rest } rfl rfl
  | @apply _ _ _ _ st _ rest _ hst | @accept _ _ _ st rest _ hst =>
    exact { h.set hst { st with frames := rest } rfl rfl with }
  | @acknowledge _ _ lsn _ st _ hst =>
    exact { h.set hst { st with acks := st.acks ++ [lsn] } rfl rfl with }
  | @deliver _ _ st rest hst => exact { h.set hst { st with acks := rest } rfl rfl with }
  | hangUp | cut => exact h.hangUp _
  | @drop id st hst | @quit id st hst =>
    exact { h.set hst { st with alive := false } rfl rfl with }

end Wiring

/-! ## The start -/

/-- A cluster that has never elected: epoch 0 everywhere, the configured primary leads, and the
    members' logs agree. -/
structure Started (config : Membership) (initial : String) (s : Cluster R) : Prop where
  configured : initial ∈ config.names
  epochs : ∀ name, (s.failover name).epochs = ⟨0, 0⟩
  roles : ∀ name, (s.failover name).role = .primary → name = initial
  deposing : ∀ name, s.deposing name = 0
  terms : ∀ name, s.term name = 0
  candidacies : ∀ name, s.candidacy name = none
  requests : s.requests = []
  handlers : s.handlers = []
  responses : s.responses = []
  grants : s.grants = []
  won : s.won = []
  acted : s.acted = []
  agree : ∀ {one other : String} {lsn : Nat} {r r' : R}, recordAt (s.log one) lsn = some r →
    recordAt (s.log other) lsn = some r' → r = r'
  durable : ∀ name, s.synced name ≤ (s.log name).length
  reached : ∀ name, s.reached name = []
  answered : s.answered = []
  vouched : ∀ name, s.vouched name = 0
  replication : ∀ name, s.replication name = Replication.new config.minAcks
  streams : s.streams = []
  upstream : ∀ name, s.upstream name = none
  owed : ∀ name, s.owed name = none

theorem Started.wired (h : Started config initial s) : Wired config s := by
  refine ⟨by simp [h.streams], ?_, ?_⟩
  · intro name id st hup
    rw [h.upstream name] at hup
    cases hup
  · intro name id hup
    rw [h.upstream name] at hup
    cases hup

/-- A cluster whose logs are empty. -/
def fresh (R : Type) (config : Membership) (initial : String) : Cluster R where
  failover name := Failover.new ⟨0, 0⟩ (decide (name = initial))
  deposing _ := 0
  standby name := decide (name ≠ initial)
  term _ := 0
  candidacy _ := none
  requests := []
  handlers := []
  responses := []
  grants := []
  won := []
  acted := []
  queue _ := []
  log _ := []
  synced _ := 0
  oldest _ := 0
  pending _ := []
  reached _ := []
  answered := []
  vouched _ := 0
  replication _ := Replication.new config.minAcks
  owner _ _ := ""
  streams := []
  upstream _ := none
  compared _ := false
  owed _ := none

theorem fresh_started (h : initial ∈ config.names) :
    Started config initial (fresh R config initial) := by
  refine ⟨h, fun _ => rfl, fun name hprimary => ?_, fun _ => rfl, fun _ => rfl, fun _ => rfl, rfl,
    rfl, rfl, rfl, rfl, rfl, fun hone _ => ?_, fun _ => le_rfl, fun _ => rfl, rfl, fun _ => rfl,
    fun _ => rfl, rfl, fun _ => rfl, fun _ => rfl⟩
  · by_contra hother
    rw [show ((fresh R config initial).failover name).role =
      if decide (name = initial) = true then .primary else .follower from rfl,
      if_neg (by simpa using hother)] at hprimary
    cases hprimary
  · rw [show (fresh R config initial).log _ = [] from rfl, recordAt] at hone
    split_ifs at hone
    cases hone

end Cluster

/-- Three members, one acknowledgement: the smallest membership that is accepted. -/
def trio : Membership :=
  ⟨[⟨"a", "vyrn://r@a:7432/d"⟩, ⟨"b", "vyrn://r@b:7432/d"⟩, ⟨"c", "vyrn://r@c:7432/d"⟩], 1,
    by decide, by decide, by decide⟩

end Vyrn
