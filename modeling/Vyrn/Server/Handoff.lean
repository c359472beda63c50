import Vyrn.Server.Replication

/-!
# The handoff from the log to the live stream

A replica that joins is sent what the files of the log hold, batch by batch, until a read finds
nothing more. Then it is registered, and sent what is offered to the broadcast from there on.

Main results: `handoff_contiguous`, `handoff_gap`.
-/

namespace Vyrn

open List Transition

def streamBacklog : Nat := 8192

/-- How far a replica's connection is. -/
inductive Join where
  | connected
  | asked (replicaLsn primaryLsn : Nat)
  | catchingUp (next : Nat)
  | caughtUp (resume : Nat)
  | live (firstLsn : Nat) (records : List Nat)
  | closed
  deriving DecidableEq, Repr

namespace Join

def next : Join → Option Nat
  | .catchingUp next => some next
  | _ => none

def resume : Join → Option Nat
  | .caughtUp resume => some resume
  | _ => none

end Join

/-- A primary and one connection. The records up to `lastLsn` were offered to the broadcast, those
    from `oldest` to `written` are in the files. -/
structure Handoff where
  lastLsn : Nat
  written : Nat
  oldest : Nat
  join : Join
  /-- The `first_lsn` of `ReplicaStream`. -/
  announced : Option Nat
  sent : List Nat
  deriving DecidableEq, Repr

namespace Handoff

def new (lastLsn written oldest : Nat) : Handoff := ⟨lastLsn, written, oldest, .connected, none, []⟩

inductive Event where
  /-- `append_batch` offers a record; it is written later. -/
  | commit
  | write
  /-- A checkpoint deletes the segments below `oldest`. -/
  | prune (oldest : Nat)
  | hello (replicaLsn : Nat)
  /-- The directory is read for its oldest LSN, or cannot be read. -/
  | decide (readable : Bool)
  /-- A read that gets as far as `through`: its batch is full there, or what follows is in a segment
      that was not there when the directory was listed. -/
  | read (through : Nat)
  | register
  | receive
  | hangUp
  deriving DecidableEq, Repr

def announce (self : Handoff) (firstLsn : Nat) : Handoff :=
  { self with join := .catchingUp firstLsn, announced := some firstLsn }

def decide (self : Handoff) (replicaLsn primaryLsn oldestAvailable : Nat) : Handoff :=
  match decideJoin replicaLsn primaryLsn oldestAvailable with
  | .refuse _ => { self with join := .closed }
  | .rebuild _ => self.announce oldestAvailable
  | .stream firstLsn => self.announce firstLsn

/-- A turn of the loop: the records found from `next` on are sent, and none ends it. -/
def catchUpFromWal (self : Handoff) (through next : Nat) : Handoff :=
  let first := max next self.oldest
  if through < first then { self with join := .caughtUp next }
  else
    { self with
      join := .catchingUp (through + 1)
      sent := self.sent ++ List.range' first (through + 1 - first) }

/-- A record from the broadcast; one that the backlog has lost ends the stream. -/
def streamRecord (self : Handoff) (firstLsn lsn : Nat) (rest : List Nat) : Handoff :=
  if streamBacklog < rest.length + 1 then { self with join := .closed }
  else
    { self with
      join := .live firstLsn rest
      sent := if lsn < firstLsn then self.sent else self.sent ++ [lsn] }

def act (self : Handoff) : Event → Option Handoff
  | .commit =>
    some { self with
      lastLsn := self.lastLsn + 1
      join := match self.join with
        | .live firstLsn records => .live firstLsn (records ++ [self.lastLsn + 1])
        | join => join }
  | .write =>
    if self.written < self.lastLsn then some { self with written := self.written + 1 } else none
  | .prune oldest => if oldest ≤ self.written + 1 then some { self with oldest := oldest } else none
  | .hello replicaLsn =>
    if self.join = .connected then some { self with join := .asked replicaLsn self.lastLsn }
    else none
  | .decide readable =>
    match self.join with
    | .asked replicaLsn primaryLsn =>
      some (self.decide replicaLsn primaryLsn (if readable then self.oldest else 0))
    | _ => none
  | .read through =>
    if through ≤ self.written then self.join.next.map (self.catchUpFromWal through) else none
  | .register => self.join.resume.map (fun resume => { self with join := .live resume [] })
  | .receive =>
    match self.join with
    | .live firstLsn (lsn :: rest) => some (self.streamRecord firstLsn lsn rest)
    | _ => none
  | .hangUp => some { self with join := .closed }

def Step (self : Handoff) (event : Event) (after : Handoff) : Prop := self.act event = some after

/-! ## The condition -/

/-- A read comes while the record it asks for is there, and a replica is registered while it was
    sent all that was offered. -/
@[reducible] def Met (self : Handoff) : Event → Prop
  | .read _ => ∀ next ∈ self.join.next, self.oldest ≤ next
  | .register => ∀ resume ∈ self.join.resume, self.lastLsn < resume
  | _ => True

instance (self : Handoff) (event : Event) : Decidable (self.Met event) := by
  cases event <;> infer_instance

/-! ## What was sent -/

/-- Everything from the announced LSN up to `next` was sent, once and in order. -/
def SentTo (announced : Option Nat) (sent : List Nat) (next : Nat) : Prop :=
  ∃ first, announced = some first ∧ first ≤ next ∧ sent = List.range' first (next - first)

/-- What was sent, by how far the connection is. What waits in the broadcast goes on from `head`
    to the last record. -/
def Contiguous (self : Handoff) : Prop :=
  match self.join with
  | .connected | .asked _ _ => self.announced = none ∧ self.sent = []
  | .catchingUp next | .caughtUp next => SentTo self.announced self.sent next
  | .live firstLsn records => ∃ head, records = List.range' head records.length ∧
      head + records.length = self.lastLsn + 1 ∧
      SentTo self.announced self.sent (max firstLsn head)
  | .closed => (self.announced = none ∧ self.sent = []) ∨
      ∃ next, SentTo self.announced self.sent next

section Keeping

variable {self after : Handoff} {event : Event} {announced : Option Nat} {sent : List Nat}
  {next : Nat}

theorem SentTo.send (h : SentTo announced sent next) (count : Nat) :
    SentTo announced (sent ++ List.range' next count) (next + count) := by
  obtain ⟨first, hannounced, hle, rfl⟩ := h
  refine ⟨first, hannounced, hle.trans (Nat.le_add_right _ _), ?_⟩
  have happend := range'_append_1 (s := first) (m := next - first) (n := count)
  rw [Nat.add_sub_cancel' hle] at happend
  rw [happend, Nat.sub_add_comm hle]

section

variable (h : self.Contiguous)
include h

theorem Contiguous.close : Contiguous { self with join := .closed } := by
  obtain ⟨lastLsn, written, oldest, join, announced, sent⟩ := self
  cases join with
  | connected | asked => exact .inl h
  | catchingUp next | caughtUp next => exact .inr ⟨next, h⟩
  | live =>
    obtain ⟨_, _, _, hsent⟩ := h
    exact .inr ⟨_, hsent⟩
  | closed => exact h

theorem Contiguous.commit (hstep : self.Step .commit after) : after.Contiguous := by
  obtain ⟨lastLsn, written, oldest, join, announced, sent⟩ := self
  cases hstep
  cases join with
  | live =>
    obtain ⟨head, hrecords, hlast, hsent⟩ := h
    refine ⟨head, ?_, ?_, hsent⟩
    · rw [length_append, length_singleton, range'_concat, ← hrecords, Nat.one_mul, hlast]
    · rw [length_append, length_singleton]
      exact congrArg (· + 1) hlast
  | connected | asked | catchingUp | caughtUp | closed => exact h

theorem Contiguous.decide {replicaLsn primaryLsn : Nat}
    (hjoin : self.join = .asked replicaLsn primaryLsn) (oldestAvailable : Nat) :
    (self.decide replicaLsn primaryLsn oldestAvailable).Contiguous := by
  rw [Contiguous, hjoin] at h
  -- nothing was sent before the announcement
  have hannounce : ∀ firstLsn, (self.announce firstLsn).Contiguous := by
    intro firstLsn
    refine ⟨firstLsn, rfl, le_rfl, ?_⟩
    rw [Nat.sub_self]
    exact h.2
  rw [Handoff.decide]
  split
  · exact .inl h
  · exact hannounce _
  · exact hannounce _

omit h in
theorem Contiguous.read (h : SentTo self.announced self.sent next) (holdest : self.oldest ≤ next)
    (through : Nat) : (self.catchUpFromWal through next).Contiguous := by
  rw [catchUpFromWal, max_eq_left holdest]
  split_ifs with hnone
  · exact h
  · have hsent := h.send (through + 1 - next)
    rw [Nat.add_sub_cancel' (by omega)] at hsent
    exact hsent

theorem Contiguous.receive {firstLsn lsn : Nat} {rest : List Nat}
    (hjoin : self.join = .live firstLsn (lsn :: rest)) :
    (self.streamRecord firstLsn lsn rest).Contiguous := by
  have hclosed := h.close
  rw [Contiguous, hjoin] at h
  obtain ⟨head, hrecords, hlast, hsent⟩ := h
  obtain ⟨rfl, hrest⟩ := cons.inj hrecords
  have hlast : lsn + 1 + rest.length = self.lastLsn + 1 := by
    rw [← hlast, length_cons]
    omega
  rw [streamRecord]
  split_ifs with hlost hskip
  · exact hclosed
  · refine ⟨lsn + 1, hrest, hlast, ?_⟩
    rw [max_eq_left hskip]
    rwa [max_eq_left hskip.le] at hsent
  · have hle : firstLsn ≤ lsn := not_lt.mp hskip
    refine ⟨lsn + 1, hrest, hlast, ?_⟩
    rw [max_eq_right (Nat.le_succ_of_le hle)]
    rw [max_eq_right hle] at hsent
    exact hsent.send 1

/-- A step that meets the condition leaves no gap. -/
theorem Contiguous.step (hmet : self.Met event) (hstep : self.Step event after) :
    after.Contiguous := by
  cases event with
  | commit => exact h.commit hstep
  | write | prune =>
    rw [Step, act] at hstep
    split_ifs at hstep
    cases hstep
    exact h
  | hello =>
    rw [Step, act] at hstep
    split_ifs at hstep with hjoin
    cases hstep
    rw [Contiguous, hjoin] at h
    exact h
  | decide =>
    rw [Step, act] at hstep
    split at hstep
    · next hjoin =>
        cases hstep
        exact h.decide hjoin _
    · cases hstep
  | read through =>
    rw [Step, act] at hstep
    split_ifs at hstep
    obtain ⟨next, hnext, rfl⟩ := Option.map_eq_some_iff.mp hstep
    have holdest := hmet next hnext
    obtain ⟨lastLsn, written, oldest, join, announced, sent⟩ := self
    cases join <;> cases hnext
    exact Contiguous.read h holdest through
  | register =>
    obtain ⟨resume, hresume, rfl⟩ := Option.map_eq_some_iff.mp hstep
    have hlast := hmet resume hresume
    obtain ⟨lastLsn, written, oldest, join, announced, sent⟩ := self
    cases join <;> cases hresume
    refine ⟨lastLsn + 1, rfl, rfl, ?_⟩
    rw [max_eq_left hlast]
    exact h
  | receive =>
    rw [Step, act] at hstep
    split at hstep
    · next hjoin =>
        cases hstep
        exact h.receive hjoin
    · cases hstep
  | hangUp =>
    cases hstep
    exact h.close

end

end Keeping

/-- **CONTIGUOUS**: over every run whose reads and registration meet the condition, the records sent
    are the announced one and those that follow it, each once. -/
theorem handoff_contiguous {lastLsn written oldest : Nat} {events : List Event} {self : Handoff}
    (hrun : Run Step Met (new lastLsn written oldest) events self) :
    (self.announced = none → self.sent = []) ∧
      ∀ first ∈ self.announced, self.sent = List.range' first self.sent.length := by
  have h : self.Contiguous :=
    hrun.invariant (I := Contiguous) (fun h hmet hstep => h.step hmet hstep) ⟨rfl, rfl⟩
  rcases h.close with ⟨hannounced, hsent⟩ | ⟨next, first, hannounced, _, hsent⟩
  · exact ⟨fun _ => hsent, fun first hfirst => nomatch hannounced.symm.trans hfirst⟩
  · refine ⟨fun hnone => (nomatch hannounced.symm.trans hnone), fun other hother => ?_⟩
    cases hannounced.symm.trans hother
    rw [hsent, length_range']

/-- A replica without records catches up with one and is sent the next one live. -/
theorem handoff_contiguous_two :
    ∃ self, Run Step Met (new 1 1 1) [.hello 0, .decide true, .read 1, .read 1,
        .register, .commit, .receive] self ∧ self.sent = [1, 2] ∧
      (self.announced = none → self.sent = []) ∧
      ∀ first ∈ self.announced, self.sent = List.range' first self.sent.length := by
  refine exists_run_of act id (p := fun self => self.sent = [1, 2])
    (by decide +kernel) (fun self hrun hsent => ?_)
  exact ⟨hsent, handoff_contiguous hrun⟩

/-- **GAP**: record 2 is committed after the last read and before the registration. -/
theorem handoff_gap :
    ∃ self, Run Step (fun _ _ => True) (new 1 1 1) [.hello 0, .decide true, .read 1,
        .read 1, .commit, .write, .register, .commit, .receive] self ∧
      self.announced = some 1 ∧ self.sent = [1, 3] :=
  exists_run act id (by decide +kernel)

end Handoff

end Vyrn
