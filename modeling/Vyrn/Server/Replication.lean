import Vyrn.Lib.Quorum
import Vyrn.Lib.Transition

/-!
# Replication on the primary: watermarks, quorums and joins

A primary keeps one durable watermark for each open stream, and a commit is answered once the
`minAcks`-th highest has reached its LSN (`quorumLsn`, `awaitQuorum`). What a watermark stands for
depends on the nodes behind the streams: in a `Fleet` replicas say hello by LSN, catch up, are
registered, store records, acknowledge them and are dropped in any order.
**`quorum_counts_distinct`**: a reached quorum is held by as many replicas, provided a stream is
registered only when no other one of its replica is and the replica's log is a prefix of the
primary's; **`quorum_counted_one_twice`** is a quorum of two that one replica supplied.
-/

namespace Vyrn

open Function (update_of_ne update_self update)
open List Transition Quorum

/-! ## The shared state -/

/-- The registered streams, each with the highest LSN its replica reported durable. -/
structure Replication where
  minAcks : Nat
  replicas : List (Nat × Nat)
  nextReplica : Nat
  deriving DecidableEq, Repr

namespace Replication

def new (minAcks : Nat) : Replication := ⟨minAcks, [], 1⟩

def enabled (self : Replication) : Bool := decide (0 < self.minAcks)

/-- The highest LSN acknowledged on at least `minAcks` streams. -/
def quorumLsn (self : Replication) : Nat :=
  if self.replicas.length < self.minAcks then 0
  else (kthHighest self.minAcks (self.replicas.map Prod.snd)).getD 0

/-- A new stream, with nothing acknowledged yet. -/
def register (self : Replication) : Nat × Replication :=
  (self.nextReplica,
    { self with
      replicas := self.replicas.filter (fun entry => entry.1 != self.nextReplica) ++
        [(self.nextReplica, 0)]
      nextReplica := self.nextReplica + 1 })

def deregister (self : Replication) (id : Nat) : Replication :=
  { self with replicas := self.replicas.filter (fun entry => entry.1 != id) }

/-- A watermark never moves back: acknowledgements may arrive out of order. -/
def acknowledge (self : Replication) (id durableLsn : Nat) : Replication :=
  { self with
    replicas := self.replicas.map
      (fun entry => if entry.1 == id then (entry.1, max entry.2 durableLsn) else entry) }

def ackedAtLeast (self : Replication) (lsn : Nat) : Nat :=
  self.replicas.countP (fun entry => decide (lsn ≤ entry.2))

end Replication

inductive QuorumError where
  | timeout (required achieved : Nat)
  deriving DecidableEq, Repr

/-- The wait for a quorum, over the states it is evaluated in: at once, and again after every
    wake-up until the time is out. -/
def awaitQuorum (lsn : Nat) : Replication → List Replication → Except QuorumError Unit
  | now, [] =>
    if now.enabled = false then .ok ()
    else if lsn ≤ now.quorumLsn then .ok ()
    else .error (.timeout now.minAcks (now.ackedAtLeast lsn))
  | now, next :: later =>
    if now.enabled = false then .ok ()
    else if lsn ≤ now.quorumLsn then .ok ()
    else awaitQuorum lsn next later

/-- What a primary answers to a replica's hello. -/
inductive JoinDecision where
  | stream (firstLsn : Nat)
  | rebuild (reason : String)
  | refuse (reason : String)
  deriving DecidableEq, Repr

def decideJoin (replicaLsn primaryLsn oldestAvailableLsn : Nat) : JoinDecision :=
  if replicaLsn > primaryLsn then
    .refuse (s!"replica is at LSN {replicaLsn} but this primary is only at {primaryLsn}; " ++
      "streaming cannot reconcile this, and the replica holds commits this primary " ++
      "does not. Rebuild the replica from a base backup once you have confirmed " ++
      "those commits are not needed.")
  else if oldestAvailableLsn > replicaLsn + 1 then
    .rebuild (s!"replica needs LSN {replicaLsn + 1} but the oldest record this primary still " ++
      s!"holds is {oldestAvailableLsn}; the records in between have been " ++
      "checkpointed and pruned. Rebuilding this replica from a base backup.")
  else .stream (replicaLsn + 1)

variable {id durableLsn lsn : Nat} {name : String} {self : Replication}

/-- **WATERMARK**: a record's LSN is below the quorum watermark when `minAcks` streams
    acknowledged it. -/
theorem le_quorumLsn_iff (hlsn : 0 < lsn) (hon : self.enabled = true) :
    lsn ≤ self.quorumLsn ↔ self.minAcks ≤ self.ackedAtLeast lsn := by
  have hmin : 0 < self.minAcks := of_decide_eq_true hon
  have hcount : self.ackedAtLeast lsn =
      (self.replicas.map Prod.snd).countP (fun mark => decide (lsn ≤ mark)) := by
    rw [countP_map]
    rfl
  rw [Replication.quorumLsn, hcount, ← kthHighest_reaches_iff hmin]
  split_ifs with hfew
  · -- with fewer streams than acknowledgements needed there is no such mark
    constructor
    · intro hle
      omega
    · rintro ⟨mark, hmark, hle⟩
      have hreach := (kthHighest_reaches_iff hmin _ lsn).mp ⟨mark, hmark, hle⟩
      have hlength := countP_le_length (p := fun mark => decide (lsn ≤ mark))
        (l := self.replicas.map Prod.snd)
      rw [length_map] at hlength
      omega
  · cases hkth : kthHighest self.minAcks (self.replicas.map Prod.snd) with
    | none =>
      constructor
      · intro hle
        exact absurd (show lsn ≤ 0 from hle) (by omega)
      · rintro ⟨mark, hmark, -⟩
        cases hmark
    | some mark =>
      constructor
      · exact fun hle => ⟨mark, rfl, hle⟩
      · rintro ⟨found, hfound, hle⟩
        rw [Option.some.inj hfound]
        exact hle

/-- A wait that ended found enough acknowledgements. -/
theorem acked_of_awaitQuorum (hlsn : 0 < lsn) (h : awaitQuorum lsn self [] = .ok ()) :
    self.minAcks ≤ self.ackedAtLeast lsn := by
  rw [awaitQuorum] at h
  split_ifs at h with hoff hreached
  · have hzero : ¬ 0 < self.minAcks := of_decide_eq_false hoff
    omega
  · exact (le_quorumLsn_iff hlsn (Bool.not_eq_false _ ▸ hoff)).mp hreached

/-! ## Streams and the replicas behind them -/

/-- Every stream has its own replica, and no watermark is past what its replica holds durably. -/
structure Replication.Tallied (replication : Replication) (owner : Nat → String)
    (durable : String → Nat) : Prop where
  fresh : ∀ entry ∈ replication.replicas, entry.1 < replication.nextReplica
  owners : (replication.replicas.map (fun entry => owner entry.1)).Nodup
  marks : ∀ entry ∈ replication.replicas, entry.2 ≤ durable (owner entry.1)

section Tallied

variable {self : Replication} {owner : Nat → String} {durable : String → Nat} {entry : Nat × Nat}

theorem tallied_new (minAcks : Nat) : (Replication.new minAcks).Tallied owner durable := by
  constructor <;> simp [Replication.new]

section

variable (h : self.Tallied owner durable)
include h

/-- A new stream takes a new id, so the old entries stay. -/
theorem Replication.Tallied.replicas_register :
    self.register.2.replicas = self.replicas ++ [(self.nextReplica, 0)] := by
  show self.replicas.filter (fun entry => entry.1 != self.nextReplica) ++ _ = _
  rw [filter_eq_self.mpr]
  intro entry hentry
  simpa using ne_of_lt (h.fresh entry hentry)

theorem Replication.Tallied.owner_register (hentry : entry ∈ self.replicas) :
    update owner self.nextReplica name entry.1 = owner entry.1 :=
  update_of_ne (ne_of_lt (h.fresh entry hentry)) _ _

/-- A stream of a node that has none keeps the tally. -/
theorem Replication.Tallied.register (hnew : ∀ entry ∈ self.replicas, owner entry.1 ≠ name) :
    self.register.2.Tallied (update owner self.nextReplica name) durable := by
  have hmem : ∀ entry ∈ self.register.2.replicas,
      entry ∈ self.replicas ∨ entry = (self.nextReplica, 0) := by
    intro entry hentry
    rw [h.replicas_register] at hentry
    exact (mem_append.mp hentry).imp id mem_singleton.mp
  refine ⟨?_, ?_, ?_⟩
  · intro entry hentry
    show entry.1 < self.nextReplica + 1
    rcases hmem entry hentry with hentry | rfl
    · exact Nat.lt_succ_of_lt (h.fresh entry hentry)
    · exact Nat.lt_succ_self _
  · rw [h.replicas_register, map_append,
      map_congr_left (fun entry hentry => h.owner_register hentry)]
    refine nodup_append.mpr ⟨h.owners, nodup_singleton _, ?_⟩
    intro owned howned newest hnewer
    obtain ⟨entry, hentry, rfl⟩ := mem_map.mp howned
    rw [mem_singleton.mp hnewer]
    show owner entry.1 ≠ update owner self.nextReplica name self.nextReplica
    rw [update_self]
    exact hnew entry hentry
  · intro entry hentry
    rcases hmem entry hentry with hentry | rfl
    · rw [h.owner_register hentry]
      exact h.marks entry hentry
    · exact Nat.zero_le _

omit h in
/-- Acknowledging changes one watermark, and no entry's id. -/
theorem mem_acknowledge (h : entry ∈ (self.acknowledge id durableLsn).replicas) :
    ∃ old ∈ self.replicas, entry.1 = old.1 ∧
      (entry.2 = old.2 ∨ (old.1 = id ∧ entry.2 = max old.2 durableLsn)) := by
  obtain ⟨old, hold, rfl⟩ := mem_map.mp h
  refine ⟨old, hold, ?_⟩
  by_cases hid : old.1 = id
  · rw [if_pos (beq_iff_eq.mpr hid)]
    exact ⟨rfl, .inr ⟨hid, rfl⟩⟩
  · rw [if_neg (fun hc => hid (beq_iff_eq.mp hc))]
    exact ⟨rfl, .inl rfl⟩

/-- A report of what the node has durable keeps the tally. -/
theorem Replication.Tallied.acknowledge (hdurable : durableLsn ≤ durable (owner id)) :
    (self.acknowledge id durableLsn).Tallied owner durable := by
  refine ⟨?_, ?_, ?_⟩
  · intro entry hentry
    obtain ⟨old, hold, hsame, -⟩ := mem_acknowledge hentry
    rw [hsame]
    exact h.fresh old hold
  · have hids : (self.acknowledge id durableLsn).replicas.map (fun entry => owner entry.1) =
        self.replicas.map (fun entry => owner entry.1) := by
      rw [Replication.acknowledge, map_map]
      refine map_congr_left (fun entry _ => ?_)
      show owner (if entry.1 == id then _ else entry).1 = owner entry.1
      split_ifs <;> rfl
    rw [hids]
    exact h.owners
  · intro entry hentry
    obtain ⟨old, hold, hsame, hmark⟩ := mem_acknowledge hentry
    rw [hsame]
    rcases hmark with hmark | ⟨rfl, hmark⟩
    · rw [hmark]
      exact h.marks old hold
    · rw [hmark]
      exact Nat.max_le.mpr ⟨h.marks old hold, hdurable⟩

omit h in
theorem mem_deregister (h : entry ∈ (self.deregister id).replicas) : entry ∈ self.replicas :=
  mem_of_mem_filter h

theorem Replication.Tallied.deregister (id : Nat) : (self.deregister id).Tallied owner durable :=
  ⟨fun entry hentry => h.fresh entry (mem_deregister hentry),
    h.owners.sublist (filter_sublist.map _),
    fun entry hentry => h.marks entry (mem_deregister hentry)⟩

theorem Replication.Tallied.mono {more : String → Nat} (hmore : ∀ name, durable name ≤ more name) :
    self.Tallied owner more :=
  ⟨h.fresh, h.owners, fun entry hentry => (h.marks entry hentry).trans (hmore _)⟩

/-- A reached quorum is held by as many replicas, each behind a registered stream. -/
theorem Replication.Tallied.quorum (hlsn : lsn ≠ 0) (hquorum : awaitQuorum lsn self [] = .ok ()) :
    ∃ names : Finset String, self.minAcks ≤ names.card ∧
      ∀ name ∈ names, lsn ≤ durable name ∧ ∃ entry ∈ self.replicas, owner entry.1 = name := by
  have hcount := acked_of_awaitQuorum (Nat.pos_of_ne_zero hlsn) hquorum
  obtain ⟨names, hcard, hnames⟩ := exists_owners h.owners hcount
  refine ⟨names, hcard, fun name hname => ?_⟩
  obtain ⟨entry, hentry, hmark, rfl⟩ := hnames name hname
  exact ⟨(of_decide_eq_true hmark).trans (h.marks entry hentry), entry, hentry, rfl⟩

end

end Tallied

/-! ## A primary and its replicas -/

/-- The record with an LSN: a log starts at LSN 1. -/
def recordAt {R : Type} (log : List R) (lsn : Nat) : Option R :=
  if lsn = 0 then none else log[lsn - 1]?

/-- A primary, the replicas' durable logs by `replica_id`, the connections that said hello and are
    not yet registered, and the `replica_id` behind each registered stream. -/
structure Fleet (R : Type) where
  log : List R
  oldest : Nat
  waiting : List String
  replication : Replication
  owner : Nat → String
  stored : String → List R

namespace Fleet

inductive Event (R : Type) where
  | append (record : R)
  | prune (oldest : Nat)
  | hello (name : String)
  | register (name : String)
  | store (name : String)
  | acknowledge (id durableLsn : Nat)
  | drop (id : Nat)
  | abandon (name : String)
  deriving DecidableEq, Repr

variable {R : Type} {s : Fleet R}

/-- One event. A hello is answered by LSN alone; unless it is refused the replica is sent what the
    WAL files have, and the stream is registered after that. A replica stores the record after its
    last one, over a connection of either kind, and acknowledges only what it stored. -/
def act (s : Fleet R) : Event R → Option (Fleet R)
  | .append record => some { s with log := s.log ++ [record] }
  | .prune oldest =>
    if s.oldest ≤ oldest ∧ oldest ≤ s.log.length + 1 then some { s with oldest := oldest }
    else none
  | .hello name =>
    match decideJoin (s.stored name).length s.log.length s.oldest with
    | .refuse _ => none
    | .stream _ | .rebuild _ => some { s with waiting := s.waiting ++ [name] }
  | .register name =>
    if name ∈ s.waiting then
      some { s with
        waiting := s.waiting.erase name
        replication := s.replication.register.2
        owner := update s.owner s.replication.nextReplica name }
    else none
  | .store name =>
    if name ∈ s.waiting ∨ name ∈ s.replication.replicas.map (fun entry => s.owner entry.1) then
      (s.log[(s.stored name).length]?).map (fun record =>
        { s with stored := update s.stored name (s.stored name ++ [record]) })
    else none
  | .acknowledge id durableLsn =>
    if id ∈ s.replication.replicas.map Prod.fst ∧
        durableLsn ≤ (s.stored (s.owner id)).length then
      some { s with replication := s.replication.acknowledge id durableLsn }
    else none
  | .drop id => some { s with replication := s.replication.deregister id }
  | .abandon name => some { s with waiting := s.waiting.erase name }

def Step (s : Fleet R) (event : Event R) (t : Fleet R) : Prop :=
  s.act event = some t

/-- The condition on a registration: no other stream of the replica is registered, and its log is
    a prefix of the primary's. -/
@[reducible] def Joins (s : Fleet R) : Event R → Prop
  | .register name =>
    (∀ entry ∈ s.replication.replicas, s.owner entry.1 ≠ name) ∧ s.stored name <+: s.log
  | _ => True

instance [DecidableEq R] (s : Fleet R) (event : Event R) : Decidable (s.Joins event) := by
  cases event <;> infer_instance

/-- The streams are tallied, and every replica behind one has a prefix of the primary's log. -/
structure Counted (s : Fleet R) : Prop where
  tallied : s.replication.Tallied s.owner (fun name => (s.stored name).length)
  matching : ∀ entry ∈ s.replication.replicas, s.stored (s.owner entry.1) <+: s.log

/-- A new stream is the only one of its replica. -/
theorem Counted.register {waiting : List String} (h : Counted s)
    (hnew : ∀ entry ∈ s.replication.replicas, s.owner entry.1 ≠ name)
    (hlog : s.stored name <+: s.log) :
    Counted { s with
      waiting := waiting
      replication := s.replication.register.2
      owner := update s.owner s.replication.nextReplica name } := by
  refine ⟨h.tallied.register hnew, ?_⟩
  intro entry hentry
  show s.stored (update s.owner s.replication.nextReplica name entry.1) <+: s.log
  rw [h.tallied.replicas_register] at hentry
  rcases mem_append.mp hentry with hentry | hentry
  · rw [h.tallied.owner_register hentry]
    exact h.matching entry hentry
  · rw [mem_singleton.mp hentry, update_self]
    exact hlog

/-- A replica stores the record the primary has at its place. -/
theorem Counted.store {record : R} (h : Counted s)
    (hrecord : s.log[(s.stored name).length]? = some record) :
    Counted { s with stored := update s.stored name (s.stored name ++ [record]) } := by
  have hlonger : s.stored name <+: s.log → s.stored name ++ [record] <+: s.log := by
    rintro ⟨rest, hrest⟩
    rw [← hrest] at hrecord ⊢
    rw [getElem?_append_right le_rfl, Nat.sub_self] at hrecord
    obtain ⟨tail, rfl⟩ : ∃ tail, rest = record :: tail := by
      cases rest with
      | nil => cases hrecord
      | cons first tail => exact ⟨tail, by rw [Option.some.inj hrecord]⟩
    exact ⟨tail, by rw [append_assoc, singleton_append]⟩
  refine ⟨h.tallied.mono (fun other => ?_), fun entry hentry => ?_⟩
  · show (s.stored other).length ≤ (update s.stored _ _ other).length
    by_cases hother : other = name
    · rw [hother, update_self, length_append]
      exact Nat.le_add_right _ _
    · rw [update_of_ne hother]
  · have hmatching := h.matching entry hentry
    show update s.stored _ _ (s.owner entry.1) <+: s.log
    by_cases howner : s.owner entry.1 = name
    · rw [howner] at hmatching ⊢
      rw [update_self]
      exact hlonger hmatching
    · rw [update_of_ne howner]
      exact hmatching

/-- A watermark follows what its replica stored. -/
theorem Counted.acknowledge (h : Counted s)
    (hstored : durableLsn ≤ (s.stored (s.owner id)).length) :
    Counted { s with replication := s.replication.acknowledge id durableLsn } := by
  refine ⟨h.tallied.acknowledge hstored, fun entry hentry => ?_⟩
  obtain ⟨old, hold, hsame, -⟩ := mem_acknowledge hentry
  show s.stored (s.owner entry.1) <+: s.log
  rw [hsame]
  exact h.matching old hold

/-- **STEP**: every event keeps the streams tallied. -/
theorem Counted.step {t : Fleet R} {event : Event R} (h : Counted s) (hjoins : s.Joins event)
    (hstep : Step s event t) : Counted t := by
  rw [Step] at hstep
  cases event with
  | append =>
    cases hstep
    exact ⟨h.tallied, fun entry hentry => (h.matching entry hentry).trans (prefix_append _ _)⟩
  | prune =>
    rw [act] at hstep
    split_ifs at hstep
    cases hstep
    exact ⟨h.tallied, h.matching⟩
  | hello =>
    rw [act] at hstep
    split at hstep <;> cases hstep <;> exact ⟨h.tallied, h.matching⟩
  | register =>
    rw [act] at hstep
    split_ifs at hstep
    cases hstep
    exact h.register hjoins.1 hjoins.2
  | store =>
    rw [act] at hstep
    split_ifs at hstep
    obtain ⟨record, hrecord, rfl⟩ := Option.map_eq_some_iff.mp hstep
    exact h.store hrecord
  | acknowledge =>
    rw [act] at hstep
    split_ifs at hstep with hack
    cases hstep
    exact h.acknowledge hack.2
  | drop id =>
    cases hstep
    exact ⟨h.tallied.deregister id, fun entry hentry => h.matching entry (mem_deregister hentry)⟩
  | abandon =>
    cases hstep
    exact ⟨h.tallied, h.matching⟩

/-- A primary as its process starts, over any logs: no stream is registered. -/
structure Started (s : Fleet R) : Prop where
  idle : s.replication.replicas = []

/-- **DISTINCT**: when the wait for a record's quorum succeeds, at least `minAcks` different
    replicas store that very record. -/
theorem quorum_counts_distinct {start s : Fleet R} {events : List (Event R)}
    (hstart : Started start) (hrun : Run Step Joins start events s) {lsn : Nat}
    {record : R} (hrecord : recordAt s.log lsn = some record)
    (hquorum : awaitQuorum lsn s.replication [] = .ok ()) :
    ∃ names : Finset String, s.replication.minAcks ≤ names.card ∧
      ∀ name ∈ names, recordAt (s.stored name) lsn = some record := by
  have hcounted : Counted s :=
    hrun.invariant (fun h hjoins hstep => h.step hjoins hstep)
      ⟨by constructor <;> simp [hstart.idle], by simp [hstart.idle]⟩
  have hlsn : lsn ≠ 0 := by
    rintro rfl
    cases hrecord
  obtain ⟨names, hcard, hnames⟩ := hcounted.tallied.quorum hlsn hquorum
  refine ⟨names, hcard, fun name hname => ?_⟩
  obtain ⟨_, entry, hentry, rfl⟩ := hnames name hname
  -- the replica's log is a prefix that reaches the LSN, so it holds the primary's record
  obtain ⟨rest, hrest⟩ := hcounted.matching entry hentry
  rw [recordAt, if_neg hlsn] at hrecord ⊢
  rw [← hrest, getElem?_append_left (by omega)] at hrecord
  exact hrecord

/-- A primary that starts with empty logs everywhere. -/
def started (minAcks : Nat) : Fleet Nat :=
  ⟨[], 0, [], Replication.new minAcks, fun _ => "", fun _ => []⟩

/-- Two replicas acknowledge the first record, and both store it. -/
theorem quorum_counts_distinct_pair :
    ∃ s : Fleet Nat, Run Step Joins (started 2)
        [.hello "a", .hello "b", .append 5, .store "b", .register "a", .register "b", .store "a",
          .acknowledge 1 1, .acknowledge 2 1] s ∧
      ∃ names : Finset String, 2 ≤ names.card ∧
        ∀ name ∈ names, recordAt (s.stored name) 1 = some 5 := by
  refine exists_run_of act id (p := fun s => s.replication.minAcks = 2 ∧
    recordAt s.log 1 = some 5 ∧ awaitQuorum 1 s.replication [] = .ok ()) (by decide +kernel) ?_
  rintro s hrun ⟨hmin, hrecord, hquorum⟩
  have hcounts := quorum_counts_distinct ⟨rfl⟩ hrun hrecord hquorum
  rwa [hmin] at hcounts

/-- **RECONNECT**: with two acknowledgements required, replica `a` acknowledges LSN 1, reconnects
    before the primary notices that the first stream is dead, and acknowledges LSN 2 on the
    second: the quorum for LSN 1 is reached and one replica stores the record. -/
theorem quorum_counted_one_twice :
    ∃ s : Fleet Nat, Run Step (fun _ _ => True) (started 2)
        [.hello "a", .register "a", .append 5, .store "a", .acknowledge 1 1, .hello "a",
          .register "a", .append 6, .store "a", .acknowledge 2 2] s ∧
      s.replication.minAcks = 2 ∧ recordAt s.log 1 = some 5 ∧
      awaitQuorum 1 s.replication [] = .ok () ∧
      ∀ names : Finset String, (∀ name ∈ names, recordAt (s.stored name) 1 = some 5) →
        names.card ≤ 1 := by
  have hrun : Run Step (fun _ _ => True) (started 2) _ _ :=
    Run.start.follow act id (show follow (fun _ _ => True) act
      (started 2) [.hello "a", .register "a", .append 5, .store "a", .acknowledge 1 1, .hello "a",
        .register "a", .append 6, .store "a", .acknowledge 2 2] = some _ from rfl)
  refine ⟨_, hrun, rfl, rfl, by decide +kernel, fun names hnames => ?_⟩
  refine Finset.card_le_one_iff_subset_singleton.mpr ⟨"a", fun name hname => ?_⟩
  by_contra hother
  have hne : name ≠ "a" := fun h => hother (Finset.mem_singleton.mpr h)
  -- only `a` ever stored a record
  have hstored : recordAt (update (update (fun _ => []) "a" [5]) "a" [5, 6]
      name) 1 = some 5 := hnames name hname
  rw [update_of_ne hne, update_of_ne hne] at hstored
  cases hstored

end Fleet

end Vyrn
