import Mathlib.Algebra.Group.Nat.Defs
import Vyrn.Server.Failover

/-!
# The epoch file, step by step

`persist` replaces the epoch file in four steps: a temporary file is written and synced, renamed,
and the directory is synced. Every step can fail, and the process or the machine can stop between
two of them. The lock is held over all four; the cached epoch is read without it. Until the
directory is synced the machine may come back with the file before: `Voter.files` holds every
content that may still be found, the newest first.

Main results: `one_vote_per_epoch`, `told_epoch_forgotten`.
-/

namespace Vyrn

open List Transition

/-! ## The code -/

inductive PersistStep where
  | write
  | sync
  | rename
  | syncDirectory
  deriving DecidableEq, Repr

/-- A call of `advance` that holds the lock, and the step of `persist` that is next. -/
structure Advance where
  epoch : Nat
  votedInIt : Bool
  next : PersistStep
  deriving DecidableEq, Repr

/-- A member with its file. `votes` are the epochs it granted a vote in or stood in, `told` those it
    answered with, sent or stood in. -/
structure Voter where
  epochs : EpochStore
  currentEpoch : Nat
  call : Option Advance
  files : List EpochStore
  votes : List Nat
  told : List Nat
  deriving DecidableEq, Repr

namespace Voter

/-- A member whose directory has no epoch file. -/
def new : Voter := ⟨⟨0, 0⟩, 0, none, [⟨0, 0⟩], [], []⟩

/-- A process opens `file`; `files` is what may be found from then on. -/
def reopen (self : Voter) (file : EpochStore) (files : List EpochStore) : Voter :=
  { self with epochs := file, currentEpoch := file.current, call := none, files := files }

/-- The end of a call that succeeds: the epochs are adopted, and a vote is answered. -/
def adopt (self : Voter) (epoch : Nat) (votedInIt : Bool) : Voter :=
  let epochs := self.epochs.advance epoch votedInIt
  { self with
    epochs := epochs
    currentEpoch := epochs.current
    call := none
    votes := if votedInIt then epoch :: self.votes else self.votes
    told := if votedInIt then epoch :: self.told else self.told }

def advance (self : Voter) (epoch : Nat) (votedInIt : Bool) : Voter :=
  if self.epochs.advance epoch votedInIt = self.epochs then self.adopt epoch votedInIt
  else { self with call := some ⟨epoch, votedInIt, .write⟩ }

/-- A step of `persist` that succeeds. -/
def persist (self : Voter) (call : Advance) : Voter :=
  match call.next with
  | .write => { self with call := some { call with next := .sync } }
  | .sync => { self with call := some { call with next := .rename } }
  | .rename =>
    { self with
      call := some { call with next := .syncDirectory }
      files := self.epochs.advance call.epoch call.votedInIt :: self.files }
  | .syncDirectory => { self with files := self.files.take 1 }.adopt call.epoch call.votedInIt

inductive Event where
  | observeEpoch (epoch : Nat)
  | considerVote (epoch candidateLsn ownLsn : Nat)
  | stand
  | persist
  /-- A step of `persist` fails. -/
  | fail
  /-- The cached epoch is sent, or answered with. -/
  | tell
  /-- The process ends, and the next one opens the file. -/
  | restart
  /-- The machine stops, and comes back with one of the contents. -/
  | crash (left : Nat)
  deriving DecidableEq, Repr

/-- A call that needs the lock waits while another one has it. `considerVote` observes the epoch
    first, which is an event of its own, since the lock is free in between. The arithmetic is
    checked: a member at the last epoch does not stand. -/
def act (self : Voter) : Event → Option Voter
  | .observeEpoch epoch =>
    if epoch ≤ self.currentEpoch then some self
    else if self.call = none then some (self.advance epoch false) else none
  | .considerVote epoch candidateLsn ownLsn =>
    if self.call ≠ none then none
    else if self.epochs.voted < epoch ∧ ownLsn ≤ candidateLsn then some (self.advance epoch true)
    else some self
  | .stand =>
    if self.call = none ∧ self.epochs.current + 1 < 2 ^ 64 then
      some (self.advance (self.epochs.current + 1) true)
    else none
  | .persist => self.call.map self.persist
  | .fail => some { self with call := none }
  | .tell => some { self with told := self.currentEpoch :: self.told }
  | .restart => self.files.head?.map (fun file => self.reopen file self.files)
  | .crash left => self.files[left]?.map (fun file => self.reopen file [file])

def Step (self : Voter) (event : Event) (after : Voter) : Prop := self.act event = some after

/-! ## The condition -/

/-- A process starts only from a file whose directory was synced. -/
def Synced (self : Voter) (event : Event) : Prop := event = .restart → self.files.length ≤ 1

instance (self : Voter) (event : Event) : Decidable (self.Synced event) :=
  inferInstanceAs (Decidable (_ → _))

/-! ## What is kept -/

/-- Every content that may be found is at or past the epochs in memory, and these are past every
    vote that was given and every epoch that was told. A vote that is being stored is a new one. -/
structure Remembers (s : Voter) : Prop where
  cached : s.currentEpoch = s.epochs.current
  believes : s.epochs.voted ≤ s.epochs.current
  files : ∀ file ∈ s.files, s.epochs.current ≤ file.current ∧
    s.epochs.voted ≤ file.voted ∧ file.voted ≤ file.current
  renamed : ∀ call ∈ s.call, call.next = .syncDirectory →
    s.files.head? = some (s.epochs.advance call.epoch call.votedInIt)
  fresh : ∀ call ∈ s.call, call.votedInIt = true → s.epochs.voted < call.epoch
  once : s.votes.Nodup
  votes : ∀ epoch ∈ s.votes, epoch ≤ s.epochs.voted
  told : ∀ epoch ∈ s.told, epoch ≤ s.epochs.current

section Keeping

variable {self after : Voter} {event : Event} {epoch : Nat} {votedInIt : Bool} {call : Advance}

section

variable (h : self.Remembers)
include h

/-- What `persist` writes is at or past the epochs in memory. -/
theorem Remembers.written (epoch : Nat) (votedInIt : Bool) :
    self.epochs.current ≤ (self.epochs.advance epoch votedInIt).current ∧
      self.epochs.voted ≤ (self.epochs.advance epoch votedInIt).voted ∧
      (self.epochs.advance epoch votedInIt).voted
        ≤ (self.epochs.advance epoch votedInIt).current := by
  have hbelieves := h.believes
  rw [EpochStore.advance]
  cases votedInIt with
  | false => exact ⟨le_max_left _ _, le_rfl, hbelieves.trans (le_max_left _ _)⟩
  | true => exact ⟨le_max_left _ _, le_max_left _ _, max_le_max_right epoch hbelieves⟩

/-- A call that starts, goes on or gives up, before the rename. -/
theorem Remembers.withCall {call : Option Advance} (hcall : ∀ c ∈ call, c.next ≠ .syncDirectory ∧
      (c.votedInIt = true → self.epochs.voted < c.epoch)) :
    Remembers { self with call := call } :=
  ⟨h.cached, h.believes, h.files, fun c hc hnext => absurd hnext (hcall c hc).1,
    fun c hc => (hcall c hc).2, h.once, h.votes, h.told⟩

/-- **ADOPT**: what a call adopts is the only content that may be found. -/
theorem Remembers.adopt (hfiles : ∀ file ∈ self.files, file = self.epochs.advance epoch votedInIt)
    (hfresh : votedInIt = true → self.epochs.voted < epoch) :
    (self.adopt epoch votedInIt).Remembers := by
  obtain ⟨hcurrent, hvoted, hbelieves⟩ := h.written epoch votedInIt
  refine ⟨rfl, hbelieves, fun file hfile => ?_, nofun, nofun, ?_, fun e he => ?_, fun e he => ?_⟩
  · rw [hfiles file hfile]
    exact ⟨le_rfl, le_rfl, hbelieves⟩
  all_goals cases votedInIt
  · exact h.once
  · exact nodup_cons.mpr ⟨fun hmem => not_le.mpr (hfresh rfl) (h.votes epoch hmem), h.once⟩
  · exact h.votes e he
  · rcases mem_cons.mp he with rfl | he
    · exact le_max_right _ _
    · exact (h.votes e he).trans hvoted
  · exact (h.told e he).trans hcurrent
  · rcases mem_cons.mp he with rfl | he
    · exact le_max_right _ _
    · exact (h.told e he).trans hcurrent

theorem Remembers.advance (hnew : votedInIt = true → self.epochs.voted < epoch) :
    (self.advance epoch votedInIt).Remembers := by
  rw [Voter.advance]
  split_ifs with hsame
  · -- nothing is stored, so it is no vote
    cases votedInIt with
    | true =>
      have hvoted : max self.epochs.voted epoch = self.epochs.voted :=
        congrArg EpochStore.voted hsame
      exact absurd (hnew rfl) (not_lt.mpr (max_eq_left_iff.mp hvoted))
    | false =>
      rw [Voter.adopt, hsame, ← h.cached]
      exact h.withCall nofun
  · refine h.withCall ?_
    rintro _ ⟨⟩
    exact ⟨nofun, hnew⟩

theorem Remembers.persist (hcall : self.call = some call) :
    (self.persist call).Remembers := by
  have hfresh := h.fresh call hcall
  rw [Voter.persist]
  split
  · refine h.withCall ?_
    rintro _ ⟨⟩
    exact ⟨nofun, hfresh⟩
  · refine h.withCall ?_
    rintro _ ⟨⟩
    exact ⟨nofun, hfresh⟩
  · refine ⟨h.cached, h.believes, fun file hfile => ?_, ?_, ?_, h.once, h.votes, h.told⟩
    · rcases mem_cons.mp hfile with rfl | hfile
      · exact h.written call.epoch call.votedInIt
      · exact h.files file hfile
    · rintro _ ⟨⟩ _
      rfl
    · rintro _ ⟨⟩
      exact hfresh
  · next hnext =>
      -- the directory is synced, and the file from before is gone
      obtain ⟨rest, hfiles⟩ := head?_eq_some_iff.mp (h.renamed call hcall hnext)
      have hone : self.files.take 1 = [self.epochs.advance call.epoch call.votedInIt] := by
        rw [hfiles]
        rfl
      refine Remembers.adopt ⟨h.cached, h.believes, fun file hfile => ?_, fun c hc _ => ?_,
        h.fresh, h.once, h.votes, h.told⟩ (fun file hfile => ?_) hfresh
      · exact h.files file (mem_of_mem_take hfile)
      · cases hcall.symm.trans hc
        exact congrArg List.head? hone
      · exact mem_singleton.mp (hone ▸ hfile)

/-- **REOPEN**: a process that opens the only content there is forgets nothing. -/
theorem Remembers.reopen {file : EpochStore} (hfile : file ∈ self.files) :
    (self.reopen file [file]).Remembers := by
  obtain ⟨hcurrent, hvoted, hbelieves⟩ := h.files file hfile
  refine ⟨rfl, hbelieves, fun other hother => ?_, nofun, nofun, h.once,
    fun e he => (h.votes e he).trans hvoted, fun e he => (h.told e he).trans hcurrent⟩
  rw [mem_singleton.mp hother]
  exact ⟨le_rfl, le_rfl, hbelieves⟩

/-- A synced step keeps every file that may be found at or past the memory. -/
theorem Remembers.step (hsynced : self.Synced event) (hstep : self.Step event after) :
    after.Remembers := by
  rw [Step] at hstep
  cases event with
  | observeEpoch =>
    rw [act] at hstep
    split_ifs at hstep <;> cases hstep
    · exact h
    · exact h.advance nofun
  | considerVote =>
    rw [act] at hstep
    split_ifs at hstep with _ hgrant <;> cases hstep
    · exact h.advance (fun _ => hgrant.1)
    · exact h
  | stand =>
    rw [act] at hstep
    split_ifs at hstep
    cases hstep
    exact h.advance (fun _ => Nat.lt_succ_of_le h.believes)
  | persist =>
    obtain ⟨call, hcall, rfl⟩ := Option.map_eq_some_iff.mp hstep
    exact h.persist hcall
  | fail =>
    cases hstep
    exact h.withCall nofun
  | tell =>
    cases hstep
    refine ⟨h.cached, h.believes, h.files, h.renamed, h.fresh, h.once, h.votes, fun e he => ?_⟩
    rcases mem_cons.mp he with rfl | he
    · exact h.cached.le
    · exact h.told e he
  | restart =>
    obtain ⟨file, hhead, rfl⟩ := Option.map_eq_some_iff.mp hstep
    obtain ⟨rest, hfiles⟩ := head?_eq_some_iff.mp hhead
    have hone : rest = [] := by
      have hlength := hsynced rfl
      rw [hfiles, length_cons] at hlength
      exact length_eq_zero_iff.mp (by omega)
    have hmem : file ∈ self.files := by
      rw [hfiles]
      exact mem_cons_self
    rw [hfiles, hone]
    exact h.reopen hmem
  | crash =>
    obtain ⟨file, hleft, rfl⟩ := Option.map_eq_some_iff.mp hstep
    exact h.reopen (mem_of_getElem? hleft)

end

end Keeping

theorem new_remembers : new.Remembers := by
  refine ⟨rfl, le_rfl, fun file hfile => ?_, nofun, nofun, nodup_nil, nofun, nofun⟩
  rw [mem_singleton.mp hfile]
  exact ⟨le_rfl, le_rfl, le_rfl⟩

/-- **ONE VOTE**: over every run, with any failures and stops, in which no process starts from a
    file whose directory was not synced, a member gives one vote in an epoch at most, and neither
    the epoch it has nor any it may find when it opens its file is below one it has told. -/
theorem one_vote_per_epoch {events : List Event} {self : Voter}
    (hrun : Run Step Synced new events self) :
    self.votes.Nodup ∧ ∀ epoch ∈ self.told,
      epoch ≤ self.currentEpoch ∧ ∀ file ∈ self.files, epoch ≤ file.current := by
  have h : self.Remembers :=
    hrun.invariant (I := Remembers) (fun h hsynced hstep => h.step hsynced hstep) new_remembers
  refine ⟨h.once, fun epoch hepoch => ⟨?_, fun file hfile => ?_⟩⟩
  · rw [h.cached]
    exact h.told epoch hepoch
  · exact (h.told epoch hepoch).trans (h.files file hfile).1

/-- The directory sync of a candidacy fails, the machine comes back with the old file, and a vote
    is granted in the same epoch. -/
theorem one_vote_after_crash :
    ∃ self, Run Step Synced new [.stand, .persist, .persist, .persist, .fail, .crash 1,
        .considerVote 1 0 0, .persist, .persist, .persist, .persist] self ∧ self.votes = [1] ∧
      self.votes.Nodup ∧ ∀ epoch ∈ self.told,
        epoch ≤ self.currentEpoch ∧ ∀ file ∈ self.files, epoch ≤ file.current := by
  refine exists_run_of act id (p := fun self => self.votes = [1])
    (by decide +kernel) (fun self hrun hvotes => ?_)
  exact ⟨hvotes, one_vote_per_epoch hrun⟩

/-- The process ends between the rename and the sync of the directory. The next one reads epoch 1
    and tells it; then the machine stops, and the member is back at epoch 0. -/
theorem told_epoch_forgotten :
    ∃ self, Run Step (fun _ _ => True) new [.observeEpoch 1, .persist, .persist,
        .persist, .restart, .tell, .crash 1] self ∧ 1 ∈ self.told ∧ self.currentEpoch = 0 :=
  exists_run act id (by decide +kernel)

end Voter

end Vyrn
