import Vyrn.Server.Replication

/-!
# Failover state: epochs, votes and roles

The handlers of automatic failover on one member: the persisted epochs, the votes a member grants
and the role it holds. `parseCluster` refuses the shapes the safety argument does not cover;
`parseCluster_accepts` is what an accepted membership guarantees, and `Membership` carries it.
Lease and election timers only decide when a handler runs, so they are not part of the state.
-/

namespace Vyrn

open List

/-! ## The membership -/

/-- One `--cluster` entry: a member's name and the URL its peers reach it at. -/
structure Member where
  name : String
  url : String
  deriving DecidableEq, Repr

/-- The Unicode property `White_Space`, which `str::trim` looks at. -/
def isWhiteSpace (c : Char) : Bool :=
  (0x9 ≤ c.val && c.val ≤ 0xD) || (0x2000 ≤ c.val && c.val ≤ 0x200A) ||
    [0x20, 0x85, 0xA0, 0x1680, 0x2028, 0x2029, 0x202F, 0x205F, 0x3000].contains c.val

/-- Leading and trailing white space removed. -/
def trim (text : List Char) : List Char :=
  ((text.dropWhile isWhiteSpace).reverse.dropWhile isWhiteSpace).reverse

/-- One entry, appended to the members read so far. -/
def parseEntry (members : List Member) (entry : List Char) : Except String (List Member) :=
  let entry := trim entry
  if entry = [] then .ok members
  else if '=' ∈ entry then
    let name := String.ofList (entry.takeWhile (fun c => c != '='))
    let url := String.ofList ((entry.dropWhile (fun c => c != '=')).drop 1)
    if name ∈ members.map Member.name then .error s!"--cluster names {name.quote} twice"
    else .ok (members ++ [⟨name, url⟩])
  else .error s!"--cluster entries are name=vyrn://... (got {(String.ofList entry).quote})"

/-- The entries of a `--cluster` value, checked against the safety argument. -/
def parseCluster (spec selfName : String) (minAcks : Nat) : Except String (List Member) :=
  match (spec.toList.splitOn ',').foldlM parseEntry [] with
  | .error reason => .error reason
  | .ok members =>
    if members.length < 3 then
      .error (s!"automatic failover requires at least 3 cluster members, got {members.length}. " ++
        "With 2, a majority is 2, so a survivor could never elect itself — and lowering that bar " ++
        "would let both sides of a partition lead at once (split-brain). Use a third " ++
        "member, or omit --cluster and promote manually as documented in docs/replication.md.")
    else if selfName ∉ members.map Member.name then
      .error s!"--cluster-self {selfName.quote} is not in the --cluster list"
    else if minAcks < members.length / 2 then
      .error (s!"automatic failover with {members.length} members requires " ++
        s!"--replication-min-acks >= {members.length / 2}: acknowledged writes must reach a " ++
        s!"majority (the primary plus {members.length / 2} acks) or an elected leader could be " ++
        s!"missing them. Got {minAcks}.")
    else .ok members

/-- The votes, the candidate's own included, that a leader needs. -/
def votesNeeded (memberCount : Nat) : Nat := memberCount / 2 + 1

variable {members parsed : List Member}

/-- An entry adds a name that was not there. -/
theorem parseEntry_names {entry : List Char} (h : parseEntry members entry = .ok parsed)
    (hnames : (members.map Member.name).Nodup) : (parsed.map Member.name).Nodup := by
  rw [parseEntry] at h
  split at h
  · cases h
    exact hnames
  split at h
  · dsimp only at h
    split at h
    · cases h
    next hname =>
    cases h
    rw [map_append]
    refine nodup_append.mpr ⟨hnames, nodup_singleton _, ?_⟩
    intro known hknown new hnew
    rw [mem_singleton.mp hnew]
    rintro rfl
    exact hname hknown
  · cases h

/-- The names of all entries are different. -/
theorem parseEntries_names {entries : List (List Char)}
    (h : entries.foldlM parseEntry members = .ok parsed)
    (hnames : (members.map Member.name).Nodup) : (parsed.map Member.name).Nodup := by
  induction entries generalizing members with
  | nil =>
    cases h
    exact hnames
  | cons entry rest ih =>
    rw [foldlM_cons] at h
    cases hentry : parseEntry members entry with
    | error =>
      rw [hentry] at h
      cases h
    | ok =>
      rw [hentry] at h
      exact ih h (parseEntry_names hentry hnames)

/-- A membership the safety argument covers: at least three members of different names, and
    acknowledgements that reach a majority together with the primary. -/
structure Membership where
  members : List Member
  minAcks : Nat
  size : 3 ≤ members.length
  distinct : (members.map Member.name).Nodup
  covers : members.length / 2 ≤ minAcks

/-- The members' names. -/
def Membership.names (config : Membership) : List String := config.members.map Member.name

/-- **ACCEPTED**: a `--cluster` value that is accepted is a membership the argument covers. -/
theorem parseCluster_accepts {spec selfName : String} {minAcks : Nat}
    (h : parseCluster spec selfName minAcks = .ok members) :
    ∃ config : Membership, config.members = members ∧ config.minAcks = minAcks ∧
      selfName ∈ config.names := by
  rw [parseCluster] at h
  split at h
  · cases h
  · next hentries =>
      split_ifs at h with hsize hself hacks
      cases h
      refine ⟨⟨members, minAcks, by omega, parseEntries_names hentries nodup_nil, by omega⟩,
        rfl, rfl, ?_⟩
      exact hself

/-- A value with a no-break space in front of its second entry. -/
theorem parseCluster_accepts_three :
    ∃ config : Membership, config.minAcks = 1 ∧ "a" ∈ config.names := by
  obtain ⟨config, _, hacks, hself⟩ := parseCluster_accepts
    (show parseCluster "a=vyrn://a,\u00A0b=vyrn://b,c=vyrn://c" "a" 1
      = .ok [⟨"a", "vyrn://a"⟩, ⟨"b", "vyrn://b"⟩, ⟨"c", "vyrn://c"⟩] from by decide +kernel)
  exact ⟨config, hacks, hself⟩

/-- Two majorities of the members meet. -/
theorem Membership.majorities_meet (config : Membership) {one other : Finset String}
    (hone : one ⊆ config.names.toFinset) (hother : other ⊆ config.names.toFinset)
    (hmany : config.members.length < one.card + other.card) : ∃ name ∈ one, name ∈ other := by
  have hall : config.names.toFinset.card = config.members.length := by
    rw [Membership.names, toFinset_card_of_nodup config.distinct, length_map]
  obtain ⟨name, hname⟩ := Finset.inter_nonempty_of_card_lt_card_add_card hone hother
    (by rw [hall]; exact hmany)
  exact ⟨name, (Finset.mem_inter.mp hname).1, (Finset.mem_inter.mp hname).2⟩

/-! ## The handlers -/

/-- The persisted epochs: the highest one adopted, and the highest one voted in. -/
structure EpochStore where
  current : Nat
  voted : Nat
  deriving DecidableEq, Repr

/-- Voting in an epoch implies believing in it; neither epoch moves back. -/
def EpochStore.advance (self : EpochStore) (epoch : Nat) (votedInIt : Bool) : EpochStore :=
  ⟨max self.current epoch, if votedInIt then max self.voted epoch else self.voted⟩

inductive Role where
  | primary
  | follower
  deriving DecidableEq, Repr

structure Failover where
  epochs : EpochStore
  role : Role
  deriving DecidableEq, Repr

namespace Failover

/-- A process starts in the configured role, over the persisted epochs. -/
def new (epochs : EpochStore) (startsAsPrimary : Bool) : Failover :=
  ⟨epochs, if startsAsPrimary then .primary else .follower⟩

def epoch (self : Failover) : Nat := self.epochs.current

/-- The first half of `observe_epoch`, under the epochs lock. -/
def adopt (self : Failover) (epoch : Nat) : Failover :=
  { self with epochs := self.epochs.advance epoch false }

/-- The second half, under the lock of the role. -/
def demoteIfPrimary (self : Failover) : Failover := { self with role := .follower }

/-- A higher epoch seen anywhere is adopted, and deposes a primary. -/
def observeEpoch (self : Failover) (epoch : Nat) : Failover :=
  if epoch ≤ self.epoch then self else (self.adopt epoch).demoteIfPrimary

/-- A vote is granted once per epoch, to a candidate whose LSN is at or past the one this member
    read. -/
def decideVote (self : Failover) (epoch candidateLsn ownLsn : Nat) : Bool × Failover :=
  if self.epochs.voted < epoch ∧ ownLsn ≤ candidateLsn then
    (true, { self with epochs := self.epochs.advance epoch true })
  else (false, self)

def considerVote (self : Failover) (epoch candidateLsn ownLsn : Nat) : Bool × Failover :=
  (self.observeEpoch epoch).decideVote epoch candidateLsn ownLsn

/-- A candidacy: a new epoch, with this member's own vote in it. -/
def stand (self : Failover) : Nat × Failover :=
  (self.epochs.current + 1,
    { self with epochs := self.epochs.advance (self.epochs.current + 1) true })

def promote (self : Failover) : Failover := { self with role := .primary }

def stepDown (self : Failover) : Failover := self.demoteIfPrimary

/-! ### What a handler can do -/

variable {epoch candidateLsn ownLsn : Nat} {self : Failover}

/-- A vote is refused, or new to the voter and remembered. -/
theorem decideVote_cases (self : Failover) (epoch candidateLsn ownLsn : Nat) :
    self.decideVote epoch candidateLsn ownLsn = (false, self) ∨
      (self.epochs.voted < epoch ∧ ownLsn ≤ candidateLsn ∧
        self.decideVote epoch candidateLsn ownLsn =
          (true, { self with epochs := self.epochs.advance epoch true })) := by
  rw [decideVote]
  split_ifs with h
  · exact .inr ⟨h.1, h.2, rfl⟩
  · exact .inl rfl

/-- A decision in an epoch that was adopted leaves the epoch and the role alone. -/
theorem decideVote_same (h : epoch ≤ self.epoch) :
    (self.decideVote epoch candidateLsn ownLsn).2.epoch = self.epoch ∧
      (self.decideVote epoch candidateLsn ownLsn).2.role = self.role := by
  rcases self.decideVote_cases epoch candidateLsn ownLsn with heq | ⟨-, -, heq⟩
  · rw [heq]
    exact ⟨rfl, rfl⟩
  · rw [heq]
    exact ⟨Nat.max_eq_left h, rfl⟩

/-- A candidacy moves to the next epoch. -/
theorem stand_epoch (self : Failover) : self.stand.2.epoch = self.epoch + 1 :=
  Nat.max_eq_right (Nat.le_succ _)

end Failover

end Vyrn
