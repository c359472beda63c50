import Mathlib.Order.MinMax
import Vyrn.Lib.Transition

/-!
# The barrier of a shared log

Many threads use one `Wal`: `append` writes a record under the lock of the writer and publishes its
LSN when the lock is gone, `sync_through` flushes under the lock of the syncer, and `rotate` swaps
the file of both under both locks. Each access to what they share is an action of its own. A write
counts when it has ended, and `sync_data` makes durable what the file held when it began.

**`durable_of_syncThrough`**: when records are written in the order of their LSNs, an LSN for which
`sync_through` returned has every record up to it on disk. **`synced_overtaken`**: a record that is
written behind a higher LSN is taken for durable.
-/

namespace Vyrn

open List Transition

namespace GroupCommit

/-- A record, and the segment it is in. -/
structure Record where
  lsn : Nat
  file : Nat
  deriving DecidableEq

/-- A call of `sync_through`, and whether its LSN had been appended or drained before. -/
structure Ask where
  lsn : Nat
  handed : Bool
  deriving DecidableEq

/-- Where the one that holds the lock of the syncer stands. -/
inductive Stage where
  | locked
  | checked
  | loaded (covered : Nat)
  | flushing (covered : Nat) (found : List Record)
  | flushed (covered : Nat)
  | raised
  deriving DecidableEq

structure Wal where
  /-- The segment of both descriptors. -/
  file : Nat
  appendedLsn : Nat
  syncedLsn : Nat
  /-- The file of a rotation, which holds the lock of the writer. -/
  rotating : Option Nat
  /-- Who holds the lock of the syncer: a call of `sync_through`, or the rotation. -/
  syncer : Option (Option Ask × Stage)
  waiting : List Ask
  /-- Written by an `append` that has not published yet. -/
  publishing : List Nat
  /-- The records that the engine keeps back. -/
  pendingWal : List Nat
  written : List Record
  durable : List Record
  /-- The LSNs of the calls of `append` that returned, and those that `drain_wal` returned. -/
  handed : List Nat
  /-- The LSNs handed out before a call of `sync_through` that returned. -/
  returned : List Nat
  deriving DecidableEq

/-- `go` is the next step of the one that holds the lock of the syncer. -/
inductive Action where
  | issue (lsn : Nat)
  | write (lsn : Nat)
  | drainNext
  | publish (lsn : Nat)
  | drained
  | call (lsn : Nat)
  | lock (ask : Ask)
  | go
  | fail
  | rotate (file : Nat)
  | enter
  deriving DecidableEq

namespace Wal

/-- `Wal::new` and `adopt`: what was there before is durable. -/
def adopt (file lsn : Nat) : Wal := ⟨file, lsn, lsn, none, none, [], [], [], [], [], [], []⟩

/-- The bytes of a record are with the kernel. -/
def put (s : Wal) (lsn : Nat) : Wal :=
  { s with written := ⟨lsn, s.file⟩ :: s.written, publishing := lsn :: s.publishing }

/-- `sync_through` returns `Ok`. -/
def ok (s : Wal) (ask : Ask) : Wal :=
  { s with returned := if ask.handed then ask.lsn :: s.returned else s.returned }

def act (s : Wal) : Action → Option Wal
  -- `append_batch` with buffered appends
  | .issue lsn => some { s with pendingWal := s.pendingWal ++ [lsn] }
  | .write lsn => if s.rotating = none then some (s.put lsn) else none
  -- `drain_pending_wal` appends what is kept back, and `drain_wal` returns under the engine's lock
  | .drainNext =>
    match s.pendingWal with
    | [] => none
    | lsn :: rest =>
      if s.rotating = none then some ({ s with pendingWal := rest }.put lsn) else none
  | .publish lsn =>
    if lsn ∈ s.publishing then
      some { s with
        publishing := s.publishing.erase lsn
        appendedLsn := max s.appendedLsn lsn
        handed := lsn :: s.handed }
    else none
  | .drained =>
    if s.pendingWal = [] ∧ s.publishing = [] then
      some { s with handed := s.appendedLsn :: s.handed }
    else none
  | .call lsn =>
    let ask := ⟨lsn, decide (lsn ∈ s.handed)⟩
    some (if lsn ≤ s.syncedLsn then s.ok ask else { s with waiting := ask :: s.waiting })
  | .lock ask =>
    if ask ∈ s.waiting ∧ s.syncer = none then
      some { s with waiting := s.waiting.erase ask, syncer := some (some ask, .locked) }
    else none
  | .go =>
    match s.syncer with
    | some (some ask, .locked) =>
      some (if ask.lsn ≤ s.syncedLsn then { s with syncer := none }.ok ask
        else { s with syncer := some (some ask, .checked) })
    | some (owner, .checked) => some { s with syncer := some (owner, .loaded s.appendedLsn) }
    | some (owner, .loaded covered) =>
      some { s with syncer := some (owner,
        .flushing covered (s.written.filter (fun record => record.file = s.file))) }
    | some (owner, .flushing covered found) =>
      some { s with syncer := some (owner, .flushed covered), durable := found ++ s.durable }
    | some (some ask, .flushed covered) =>
      some ({ s with syncer := none, syncedLsn := max s.syncedLsn covered }.ok ask)
    | some (none, .flushed covered) =>
      some { s with syncer := some (none, .raised), syncedLsn := max s.syncedLsn covered }
    | some (none, .raised) =>
      s.rotating.map (fun file => { s with file := file, syncer := none, rotating := none })
    | _ => none
  -- `sync_data` fails, or `try_clone` in a rotation
  | .fail =>
    match s.syncer with
    | some (some _, .flushing _ _) => some { s with syncer := none }
    | some (none, .flushing _ _) | some (none, .raised) =>
      some { s with syncer := none, rotating := none }
    | _ => none
  | .rotate file => if s.rotating = none then some { s with rotating := some file } else none
  | .enter =>
    if s.rotating ≠ none ∧ s.syncer = none then some { s with syncer := some (none, .checked) }
    else none

def Step (s : Wal) (action : Action) (t : Wal) : Prop := s.act action = some t

/-- Records are issued and written in the order of their LSNs, as under the lock of the engine. -/
@[reducible] def Ordered (s : Wal) : Action → Prop
  | .issue lsn => (∀ p ∈ s.pendingWal, p < lsn) ∧ s.appendedLsn < lsn ∧
      ∀ record ∈ s.written, record.lsn < lsn
  | .write lsn => (∀ p ∈ s.pendingWal, lsn < p) ∧ s.appendedLsn < lsn ∧
      ∀ record ∈ s.written, record.lsn < lsn
  | _ => True

instance (s : Wal) (action : Action) : Decidable (s.Ordered action) := by
  cases action <;> infer_instance

/-! ## What the barrier covers -/

/-- An LSN that was published, and up to which every record is durable. -/
def Safe (s : Wal) (lsn : Nat) : Prop :=
  lsn ≤ s.appendedLsn ∧ ∀ record ∈ s.written, record.lsn ≤ lsn → record ∈ s.durable

/-- What a holder of the lock will cover was published, and is enough for its caller. -/
def Loaded (s : Wal) (owner : Option Ask) (covered : Nat) : Prop :=
  covered ≤ s.appendedLsn ∧ ∀ ask ∈ owner, ask.handed = true → ask.lsn ≤ covered

/-- What a flush has found and what is durable are all records up to what it covers, and in a
    rotation all there are. -/
def Taken (s : Wal) (owner : Option Ask) (covered : Nat) (found : List Record) : Prop :=
  s.Loaded owner covered ∧ ∀ record ∈ s.written,
    record.lsn ≤ covered ∨ owner = none → record ∈ found ++ s.durable

def Holds (s : Wal) (owner : Option Ask) : Stage → Prop
  | .locked | .checked => s.Loaded owner s.appendedLsn
  | .loaded covered => s.Loaded owner covered
  | .flushing covered found => s.Taken owner covered found
  | .flushed covered => s.Taken owner covered []
  | .raised => owner = none ∧ ∀ record ∈ s.written, record ∈ s.durable

structure Sound (s : Wal) : Prop where
  synced : s.Safe s.syncedLsn
  returned : ∀ lsn ∈ s.returned, s.Safe lsn
  older : ∀ record ∈ s.written, record.file ≠ s.file → record ∈ s.durable
  publishing : ∀ lsn ∈ s.publishing, ∃ record ∈ s.written, record.lsn = lsn
  pending : ∀ p ∈ s.pendingWal, s.appendedLsn < p ∧ ∀ record ∈ s.written, record.lsn < p
  sorted : s.pendingWal.Pairwise (· < ·)
  handed : ∀ lsn ∈ s.handed, lsn ≤ s.appendedLsn
  waiting : ∀ ask ∈ s.waiting, ask.handed = true → ask.lsn ≤ s.appendedLsn
  holds : ∀ holder ∈ s.syncer, s.Holds holder.1 holder.2
  rotates : ∀ holder ∈ s.syncer, holder.1 = none → s.rotating ≠ none

section Steps

variable {s t : Wal} {owner : Option Ask} {stage : Stage} {lsn covered new : Nat}

theorem Safe.below (h : s.Safe lsn) {below : Nat} (hle : below ≤ lsn) : s.Safe below :=
  ⟨hle.trans h.1, fun record hrecord hbelow => h.2 record hrecord (hbelow.trans hle)⟩

/-- A record above what is published changes nothing for the LSNs below. -/
theorem Safe.put (h : s.Safe lsn) (hnew : s.appendedLsn < new) : (s.put new).Safe lsn :=
  ⟨h.1, forall_mem_cons.mpr
    ⟨fun hbelow => absurd (hbelow.trans h.1) (not_le.mpr hnew), h.2⟩⟩

theorem Taken.put {found : List Record} (h : s.Taken owner covered found) (howner : owner ≠ none)
    (hnew : s.appendedLsn < new) : (s.put new).Taken owner covered found := by
  refine ⟨h.1, forall_mem_cons.mpr ⟨?_, h.2⟩⟩
  rintro (hbelow | hnone)
  · exact absurd (hbelow.trans h.1.1) (not_le.mpr hnew)
  · exact absurd hnone howner

theorem Holds.put (h : s.Holds owner stage) (howner : owner ≠ none) (hnew : s.appendedLsn < new) :
    (s.put new).Holds owner stage := by
  cases stage with
  | locked | checked | loaded => exact h
  | flushing | flushed => exact Taken.put h howner hnew
  | raised => exact absurd h.1 howner

/-- Publishing a record leaves what a flush has to take in. -/
theorem Holds.publish (h : s.Holds owner stage) (hle : s.appendedLsn ≤ t.appendedLsn)
    (hwritten : t.written = s.written) (hdurable : t.durable = s.durable) :
    t.Holds owner stage := by
  cases stage with
  | locked | checked =>
    exact ⟨le_rfl, fun ask hask hhanded => (h.2 ask hask hhanded).trans hle⟩
  | loaded => exact ⟨h.1.trans hle, h.2⟩
  | flushing | flushed =>
    rw [Holds, Taken, hwritten, hdurable]
    exact ⟨⟨h.1.1.trans hle, h.1.2⟩, h.2⟩
  | raised =>
    rw [Holds, hwritten, hdurable]
    exact h

section

variable (h : Sound s)
include h

/-- A record is written behind those before it. -/
theorem Sound.put (hfree : s.rotating = none) (hnew : s.appendedLsn < lsn)
    (hpending : ∀ p ∈ s.pendingWal, lsn < p) : Sound (s.put lsn) :=
  { h with
    synced := h.synced.put hnew
    returned := fun r hr => (h.returned r hr).put hnew
    older := forall_mem_cons.mpr ⟨fun hne => absurd rfl hne, h.older⟩
    publishing := forall_mem_cons.mpr ⟨⟨_, mem_cons_self, rfl⟩, fun p hp => by
      obtain ⟨record, hrecord, heq⟩ := h.publishing p hp
      exact ⟨record, mem_cons_of_mem _ hrecord, heq⟩⟩
    pending := fun p hp =>
      ⟨(h.pending p hp).1, forall_mem_cons.mpr ⟨hpending p hp, (h.pending p hp).2⟩⟩
    holds := fun holder hholder =>
      (h.holds holder hholder).put (fun hnone => h.rotates holder hholder hnone hfree) hnew }

theorem Sound.publish (hmem : lsn ∈ s.publishing) :
    Sound { s with
      publishing := s.publishing.erase lsn
      appendedLsn := max s.appendedLsn lsn
      handed := lsn :: s.handed } := by
  have hle : s.appendedLsn ≤ max s.appendedLsn lsn := le_max_left _ _
  obtain ⟨record, hrecord, rfl⟩ := h.publishing lsn hmem
  exact { h with
    synced := ⟨h.synced.1.trans hle, h.synced.2⟩
    returned := fun r hr => ⟨(h.returned r hr).1.trans hle, (h.returned r hr).2⟩
    publishing := fun p hp => h.publishing p (mem_of_mem_erase hp)
    pending := fun p hp =>
      ⟨max_lt (h.pending p hp).1 ((h.pending p hp).2 record hrecord), (h.pending p hp).2⟩
    handed := forall_mem_cons.mpr ⟨le_max_right _ _, fun r hr => (h.handed r hr).trans hle⟩
    waiting := fun ask hask hready => (h.waiting ask hask hready).trans hle
    holds := fun holder hholder => (h.holds holder hholder).publish hle rfl rfl }

theorem Sound.ok {ask : Ask} (hsafe : ask.handed = true → s.Safe ask.lsn) :
    Sound (s.ok ask) := by
  refine { h with returned := ?_ }
  show ∀ lsn ∈ if ask.handed then ask.lsn :: s.returned else s.returned, _
  split_ifs with hready
  · exact forall_mem_cons.mpr ⟨hsafe hready, h.returned⟩
  · exact h.returned

/-- The holder goes on. -/
theorem Sound.turn (hholds : s.Holds owner stage) (hrotates : owner = none → s.rotating ≠ none) :
    Sound { s with syncer := some (owner, stage) } :=
  { h with
    holds := fun holder hholder => by cases hholder; exact hholds
    rotates := fun holder hholder => by cases hholder; exact hrotates }

/-- The locks are given up. -/
theorem Sound.free (rotating : Option Nat) :
    Sound { s with syncer := none, rotating := rotating } :=
  { h with
    holds := fun _ hholder => nomatch hholder
    rotates := fun _ hholder => nomatch hholder }

theorem Sound.raise (hsafe : s.Safe covered) :
    Sound { s with syncedLsn := max s.syncedLsn covered } := by
  refine { h with synced := ⟨max_le h.synced.1 hsafe.1, fun record hrecord hbelow => ?_⟩ }
  exact (le_max_iff.mp hbelow).elim (h.synced.2 record hrecord) (hsafe.2 record hrecord)

/-- A flush ends: what it found is durable. -/
theorem Sound.settle (found : List Record) :
    Sound { s with syncer := none, durable := found ++ s.durable } :=
  { h.free s.rotating with
    synced := ⟨h.synced.1, fun r hr hle => mem_append_right _ (h.synced.2 r hr hle)⟩
    returned := fun lsn hlsn => ⟨(h.returned lsn hlsn).1, fun r hr hle =>
      mem_append_right _ ((h.returned lsn hlsn).2 r hr hle)⟩
    older := fun r hr hne => mem_append_right _ (h.older r hr hne)
    holds := fun _ hholder => nomatch hholder }

/-- The holder of the syncer goes on by one stage. -/
theorem Sound.go (hstep : Step s .go t) : Sound t := by
  rw [Step, act] at hstep
  split at hstep
  · next ask hsyncer =>
      cases hstep
      have hloaded : s.Loaded (some ask) s.appendedLsn := h.holds _ hsyncer
      split_ifs with hsynced
      · exact (h.free s.rotating).ok (fun _ => h.synced.below hsynced)
      · exact h.turn hloaded (fun hnone => nomatch hnone)
  · next owner hsyncer =>
      cases hstep
      exact h.turn (h.holds _ hsyncer) (h.rotates _ hsyncer)
  · next owner covered hsyncer =>
      cases hstep
      refine h.turn ⟨h.holds _ hsyncer, fun record hrecord _ => ?_⟩ (h.rotates _ hsyncer)
      -- what is in another segment is durable since the rotation
      by_cases hfile : record.file = s.file
      · exact mem_append_left _ (mem_filter.mpr ⟨hrecord, decide_eq_true hfile⟩)
      · exact mem_append_right _ (h.older record hrecord hfile)
  · next owner covered found hsyncer =>
      cases hstep
      exact (h.settle found).turn (h.holds _ hsyncer) (h.rotates _ hsyncer)
  · next ask covered hsyncer =>
      cases hstep
      obtain ⟨hloaded, hall⟩ : s.Taken (some ask) covered [] := h.holds _ hsyncer
      have hsafe : s.Safe covered :=
        ⟨hloaded.1, fun record hrecord hle => hall record hrecord (.inl hle)⟩
      exact ((h.free s.rotating).raise hsafe).ok
        (fun hready => hsafe.below (hloaded.2 ask rfl hready))
  · next covered hsyncer =>
      cases hstep
      obtain ⟨hloaded, hall⟩ : s.Taken none covered [] := h.holds _ hsyncer
      exact (h.raise ⟨hloaded.1, fun record hrecord _ => hall record hrecord (.inr rfl)⟩).turn
        ⟨rfl, fun record hrecord => hall record hrecord (.inr rfl)⟩ (h.rotates _ hsyncer)
  · next hsyncer =>
      obtain ⟨file, _, rfl⟩ := Option.map_eq_some_iff.mp hstep
      obtain ⟨_, hall⟩ : s.Holds none .raised := h.holds _ hsyncer
      exact { h.free none with older := fun record hrecord _ => hall record hrecord }
  · cases hstep

/-- **STEP**: a step in order keeps the counters sound. -/
theorem Sound.step {action : Action} (hordered : s.Ordered action) (hstep : Step s action t) :
    Sound t := by
  cases action with
  | issue =>
    cases hstep
    exact { h with
      pending := forall_mem_append.mpr
        ⟨h.pending, forall_mem_singleton.mpr hordered.2⟩
      sorted := pairwise_append.mpr ⟨h.sorted, pairwise_singleton _ _,
        fun p hp q hq => mem_singleton.mp hq ▸ hordered.1 p hp⟩ }
  | write =>
    obtain ⟨hfree, heq⟩ := Option.ite_none_right_eq_some.mp hstep
    cases heq
    exact h.put hfree hordered.2.1 hordered.1
  | drainNext =>
    rw [Step, act] at hstep
    split at hstep
    · cases hstep
    · next lsn rest hpending =>
        obtain ⟨hfree, heq⟩ := Option.ite_none_right_eq_some.mp hstep
        cases heq
        have hsorted := h.sorted
        have hp := h.pending
        rw [hpending] at hsorted hp
        obtain ⟨hfirst, hrest⟩ := forall_mem_cons.mp hp
        obtain ⟨hlt, hsorted⟩ := pairwise_cons.mp hsorted
        have hwithout : Sound { s with pendingWal := rest } :=
          { h with pending := hrest, sorted := hsorted }
        exact hwithout.put hfree hfirst.1 hlt
  | publish =>
    obtain ⟨hmem, heq⟩ := Option.ite_none_right_eq_some.mp hstep
    cases heq
    exact h.publish hmem
  | drained =>
    obtain ⟨_, heq⟩ := Option.ite_none_right_eq_some.mp hstep
    cases heq
    exact { h with handed := forall_mem_cons.mpr ⟨le_rfl, h.handed⟩ }
  | call lsn =>
    cases hstep
    split_ifs with hsynced
    · exact h.ok (fun _ => h.synced.below hsynced)
    · have hready := fun hmem => h.handed lsn (of_decide_eq_true hmem)
      exact { h with waiting := forall_mem_cons.mpr ⟨hready, h.waiting⟩ }
  | lock ask =>
    obtain ⟨⟨hask, _⟩, heq⟩ := Option.ite_none_right_eq_some.mp hstep
    cases heq
    have hleft : Sound { s with waiting := s.waiting.erase ask } :=
      { h with waiting := fun other hother => h.waiting other (mem_of_mem_erase hother) }
    refine hleft.turn ⟨le_rfl, fun other hother => ?_⟩ (fun hnone => nomatch hnone)
    cases hother
    exact h.waiting ask hask
  | go => exact h.go hstep
  | fail =>
    rw [Step, act] at hstep
    split at hstep
    · cases hstep
      exact h.free s.rotating
    · cases hstep
      exact h.free none
    · cases hstep
      exact h.free none
    · cases hstep
  | rotate =>
    obtain ⟨_, heq⟩ := Option.ite_none_right_eq_some.mp hstep
    cases heq
    exact { h with rotates := fun _ _ _ hnone => nomatch hnone }
  | enter =>
    obtain ⟨⟨hrotating, _⟩, heq⟩ := Option.ite_none_right_eq_some.mp hstep
    cases heq
    exact h.turn ⟨le_rfl, fun _ hask => nomatch hask⟩ (fun _ => hrotating)

end

end Steps

/-- **GROUP COMMIT**: when records are written in the order of their LSNs, then whenever
    `sync_through` has returned for an LSN that was appended or drained before the call, all records
    up to it are durable, in whatever segment they are, and the engine keeps none of them back. -/
theorem durable_of_syncThrough {file floor : Nat} {actions : List Action} {s : Wal}
    (hrun : Run Step Ordered (adopt file floor) actions s) :
    ∀ lsn ∈ s.returned, (∀ record ∈ s.written, record.lsn ≤ lsn → record ∈ s.durable) ∧
      ∀ p ∈ s.pendingWal, lsn < p := by
  have h : Sound s := hrun.invariant (I := Sound) (fun h hordered hstep => h.step hordered hstep)
    { synced := ⟨le_rfl, forall_mem_nil _⟩
      returned := forall_mem_nil _
      older := forall_mem_nil _
      publishing := forall_mem_nil _
      pending := forall_mem_nil _
      sorted := .nil
      handed := forall_mem_nil _
      waiting := forall_mem_nil _
      holds := fun _ hholder => nomatch hholder
      rotates := fun _ hholder => nomatch hholder }
  intro lsn hlsn
  obtain ⟨hle, hcovers⟩ := h.returned lsn hlsn
  exact ⟨hcovers, fun p hp => hle.trans_lt (h.pending p hp).1⟩

/-- Record 1 is written before a rotation and published behind it, and record 2 is drained while
    the barrier for record 1 runs. -/
theorem durable_of_syncThrough_rotated :
    ∃ s, Run Step Ordered (adopt 0 0)
        [.write 1, .rotate 1, .enter, .go, .go, .go, .go, .go, .publish 1, .issue 2, .issue 3,
          .call 1, .lock ⟨1, true⟩, .go, .go, .drainNext, .go, .publish 2, .go, .go] s ∧
      s.returned = [1] ∧ s.written = [⟨2, 1⟩, ⟨1, 0⟩] ∧ ⟨1, 0⟩ ∈ s.durable ∧
      ∀ p ∈ s.pendingWal, 1 < p := by
  refine exists_run_of act id (p := fun s =>
    s.returned = [1] ∧ s.written = [⟨2, 1⟩, ⟨1, 0⟩]) (by decide +kernel)
    (fun s hrun hfacts => ⟨hfacts.1, hfacts.2, ?_⟩)
  obtain ⟨hdurable, hpending⟩ := durable_of_syncThrough hrun 1 (by rw [hfacts.1]; decide)
  exact ⟨hdurable ⟨1, 0⟩ (by rw [hfacts.2]; decide) le_rfl, hpending⟩

/-- Record 1 is written after the barrier for record 2: its own is taken for done. -/
theorem synced_overtaken :
    ∃ s, Run Step (fun _ _ => True) (adopt 0 0)
        [.write 2, .publish 2, .call 2, .lock ⟨2, true⟩, .go, .go, .go, .go, .go, .write 1,
          .publish 1, .call 1] s ∧
      s.returned = [1, 2] ∧ ⟨1, 0⟩ ∈ s.written ∧ ⟨1, 0⟩ ∉ s.durable := by
  refine exists_run act id ?_
  decide +kernel

end Wal

end GroupCommit

end Vyrn
