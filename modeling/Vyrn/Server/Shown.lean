import Vyrn.Server.Barrier

/-!
# Reads behind the barrier

Data that a read, a transaction, a subscription or a cursor replay can return (`Shows`) should
belong to a commit that has passed its barrier. The read handle follows the flush worker; the other
paths look at the engine, which has commits that still wait. **`visible_after_barrier`** is the
result over every run that is `Quiet`; **`snapshot_before_sync`** is a transaction that begins while
a batch waits for its sync.
-/

namespace Vyrn

open SortedMap List Transition

namespace Shard

/-- The commit was acknowledged, as far as it had to be. -/
def Acked (s : Shard) (lsn : Nat) : Prop :=
  s.replication.minAcks = 0 ∨ lsn ≤ s.opened ∨ ∃ q ∈ s.reached, lsn ≤ q.1

/-- The commit has passed its barrier, or was there when the shard was opened. -/
def Durable (s : Shard) (lsn : Nat) : Prop := lsn ≤ s.synced ∧ Acked s lsn

instance (s : Shard) (lsn : Nat) : Decidable (Durable s lsn) :=
  inferInstanceAs (Decidable (lsn ≤ s.synced ∧
    (s.replication.minAcks = 0 ∨ lsn ≤ s.opened ∨ ∃ q ∈ s.reached, lsn ≤ q.1)))

/-- What a handle can return. -/
def Reads (reader : ReadEngine Nat) (lsn : Nat) : Prop :=
  lsn ≤ reader.tree ∨ ∃ overlay ∈ reader.overlay, ∃ e ∈ overlay.entries, e.2.revision = lsn

/-- Data of the commit can be returned: by the read handle, by a transaction, on the feed of a
    subscription, or by the replay of a cursor. -/
def Shows (s : Shard) (lsn : Nat) : Prop :=
  Reads s.reader lsn ∨ (∃ snapshot ∈ s.snapshots, lsn ≤ snapshot) ∨ lsn ∈ s.feed ∨ lsn ≤ s.replayed

/-- The condition on an event. What looks at the engine runs while no commit waits for its barrier;
    what is published leaves no failed group uncovered; with replicas every commit is batched. -/
@[reducible] def Quiet (s : Shard) : Event → Prop
  | .begin | .replay | .republish => Durable s s.commits.length
  | .publish | .skip => Durable s s.failed
  | .document .. | .index .. => s.replication.minAcks = 0
  | _ => True

instance (s : Shard) (event : Event) : Decidable (Quiet s event) := by
  apply @Event.casesOn _ event <;> intros <;> infer_instance

/-- What publishing a queued commit would add to what can be returned. -/
def Adds (flush : PendingFlush) (lsn : Nat) : Prop :=
  lsn ≤ flush.root ∨ lsn ∈ flush.published ∨ ∃ m ∈ flush.writeBack.mutations, m.revision = lsn

/-- The commit has passed its barrier, or failed it. -/
def Ended (s : Shard) (lsn : Nat) : Prop := Durable s lsn ∨ lsn ≤ s.failed

/-- The commit is behind the barrier of one of these. -/
def Ahead (flushes : List PendingFlush) (lsn : Nat) : Prop :=
  ∃ flush ∈ flushes, ∃ own ∈ flush.lsn, lsn ≤ own

/-- What a queued commit adds has ended or waits at or ahead of it, in order. -/
def InOrder (s : Shard) : List PendingFlush → List PendingFlush → Prop
  | _, [] => True
  | before, flush :: rest =>
    (∀ lsn, Adds flush lsn → Ended s lsn ∨ Ahead (before ++ [flush]) lsn) ∧
      InOrder s (before ++ [flush]) rest

/-- What the flush worker has heard of the replicas. -/
def Heard (s : Shard) : Stage → Prop
  | .idle | .barrier _ _ none => True
  | .barrier lsn _ (some _) => Acked s lsn
  | .publishing _ => ∀ flush ∈ s.group, ∀ own ∈ flush.lsn, Acked s own

/-- Nothing is shown before its barrier, and the queue keeps it so. -/
structure Hidden (opened : Nat) (s : Shard) : Prop where
  opened : s.opened = opened
  absorbed : s.absorbed ≤ s.commits.length
  synced : s.synced ≤ s.commits.length
  staged : ∀ lsn ∈ s.lastPublished, lsn ≤ s.commits.length
  shows : ∀ {lsn}, Shows s lsn → Durable s lsn
  heard : Heard s s.stage
  ordered : InOrder s [] (s.group ++ s.queue)
  last : Ended s s.commits.length ∨ Ahead (s.group ++ s.queue) s.commits.length

section Hidden

variable {opened : Nat} {s t : Shard} {flushes before : List PendingFlush} {lsn minAcks : Nat}
  {flush : PendingFlush} {reader after : ReadEngine Nat}

theorem Acked.mono (h : Acked s lsn) (hminAcks : t.replication.minAcks = s.replication.minAcks)
    (hopened : t.opened = s.opened) (hreached : ∀ q ∈ s.reached, q ∈ t.reached) : Acked t lsn := by
  rw [Acked, hminAcks, hopened]
  exact h.imp id (fun hacked => hacked.imp id (fun ⟨q, hq, hlsn⟩ => ⟨q, hreached q hq, hlsn⟩))

theorem Acked.below {below : Nat} (h : Acked s lsn) (hle : below ≤ lsn) : Acked s below :=
  h.imp id (fun hacked => hacked.imp (Nat.le_trans hle)
    (fun ⟨q, hq, hlsn⟩ => ⟨q, hq, hle.trans hlsn⟩))

theorem Durable.below {below : Nat} (h : Durable s lsn) (hle : below ≤ lsn) : Durable s below :=
  ⟨hle.trans h.1, h.2.below hle⟩

theorem Ahead.mono {more : List PendingFlush} (h : Ahead flushes lsn)
    (hmore : ∀ flush ∈ flushes, flush ∈ more) : Ahead more lsn := by
  obtain ⟨flush, hflush, hown⟩ := h
  exact ⟨flush, hmore flush hflush, hown⟩

theorem ahead_last {own : Nat} (hown : flush.lsn = some own) (hle : lsn ≤ own) :
    Ahead (before ++ [flush]) lsn :=
  ⟨flush, mem_append_right _ (mem_singleton_self _), own, hown, hle⟩

/-- The order survives when what has ended stays ended, and what leaves the front has ended. -/
theorem InOrder.mono {before' : List PendingFlush} (h : InOrder s before flushes)
    (hended : ∀ {lsn}, Ended s lsn → Ended t lsn)
    (hahead : ∀ {lsn}, Ahead before lsn → Ended t lsn ∨ Ahead before' lsn) :
    InOrder t before' flushes := by
  induction flushes generalizing before before' with
  | nil => trivial
  | cons flush rest ih =>
    have hnext : ∀ {lsn}, Ahead (before ++ [flush]) lsn →
        Ended t lsn ∨ Ahead (before' ++ [flush]) lsn := by
      rintro lsn ⟨other, hother, own, hown, hlsn⟩
      rcases mem_append.mp hother with hother | hother
      · refine (hahead ⟨other, hother, own, hown, hlsn⟩).imp id (fun hleft => ?_)
        exact hleft.mono (fun f hf => mem_append_left _ hf)
      · exact .inr ⟨other, mem_append_right _ hother, own, hown, hlsn⟩
    refine ⟨fun lsn hadds => ?_, ih h.2 hnext⟩
    rcases h.1 lsn hadds with hdone | hleft
    · exact .inl (hended hdone)
    · exact hnext hleft

theorem InOrder.append (h : InOrder s before flushes)
    (hlast : ∀ lsn, Adds flush lsn → Ended s lsn ∨ Ahead (before ++ flushes ++ [flush]) lsn) :
    InOrder s before (flushes ++ [flush]) := by
  induction flushes generalizing before with
  | nil =>
    rw [append_nil] at hlast
    exact ⟨hlast, trivial⟩
  | cons first rest ih =>
    have hsame : before ++ [first] ++ rest = before ++ first :: rest := by
      rw [append_assoc, singleton_append]
    refine ⟨h.1, ih h.2 ?_⟩
    rw [hsame]
    exact hlast

theorem InOrder.drop {front flushes : List PendingFlush} (h : InOrder s before (front ++ flushes)) :
    InOrder s (before ++ front) flushes := by
  induction front generalizing before with
  | nil =>
    rw [append_nil]
    exact h
  | cons first rest ih =>
    rw [← singleton_append, ← append_assoc]
    exact ih h.2

theorem Heard.mono {stage : Stage} (h : Heard s stage) (hgroup : t.group = s.group)
    (hminAcks : t.replication.minAcks = s.replication.minAcks) (hopened : t.opened = s.opened)
    (hreached : ∀ q ∈ s.reached, q ∈ t.reached) : Heard t stage := by
  match stage, h with
  | .idle, _ | .barrier _ _ none, _ => trivial
  | .barrier _ _ (some _), h => exact Acked.mono h hminAcks hopened hreached
  | .publishing _, h =>
    intro flush hflush own hown
    rw [hgroup] at hflush
    exact (h flush hflush own hown).mono hminAcks hopened hreached

/-! ## The handle -/

theorem reads_refresh {generation root : Nat} {retired : Bool}
    (h : reader.refresh generation root retired = .ok after) (hreads : Reads after lsn) :
    Reads reader lsn ∨ lsn ≤ root := by
  rw [ReadEngine.refresh] at h
  split_ifs at h <;> cases h
  · exact .inl hreads
  · exact hreads.elim .inr (fun hentry => .inl (.inr hentry))
  · exact hreads.elim .inr (fun hentry => .inl (.inr hentry))

theorem reads_publishWriteBack {publish : WriteBackPublish}
    (h : reader.publishWriteBack publish = .ok after) (hreads : Reads after lsn) :
    Reads reader lsn ∨ ∃ m ∈ publish.mutations, m.revision = lsn := by
  rcases ReadEngine.publishWriteBack_cases h with rfl | ⟨overlay, _, _, hoverlay, hsub, rfl⟩
  · exact .inl hreads
  · -- the tree stays, and the entries are old ones or mutations of the commit
    rcases hreads with htree | ⟨_, ⟨⟩, e, he, hrevision⟩
    · exact .inl (.inl htree)
    · rcases Overlay.mem_recorded (hsub he) with hold | ⟨m, hm, rfl⟩
      · exact .inl (.inr ⟨overlay, hoverlay, e, hold, hrevision⟩)
      · exact .inr ⟨m, hm, hrevision⟩

theorem reads_refreshReader (h : s.refreshReader flush = .ok reader) (hreads : Reads reader lsn) :
    Reads s.reader lsn ∨ Adds flush lsn := by
  obtain ⟨refreshed, hrefresh, hpublish⟩ := bind_eq_ok.mp h
  rcases reads_publishWriteBack hpublish hreads with hreads | hmutation
  · exact (reads_refresh hrefresh hreads).imp id .inl
  · exact .inr (.inr (.inr hmutation))

theorem reads_evictWriteBackThrough {bound : Nat}
    (hreads : Reads (reader.evictWriteBackThrough bound) lsn) : Reads reader lsn := by
  rw [ReadEngine.evictWriteBackThrough] at hreads
  split at hreads
  · exact hreads
  · next overlay hoverlay =>
      split_ifs at hreads
      · rcases hreads with htree | ⟨_, ⟨⟩, e, he, hrevision⟩
        · exact .inl htree
        · exact .inr ⟨overlay, hoverlay, e, mem_of_mem_filter he, hrevision⟩
      · exact hreads

/-! ## Steps -/

/-- What a commit leaves stays below the end of the log. -/
def Bounded (s : Shard) : Prop :=
  s.absorbed ≤ s.commits.length ∧ ∀ lsn ∈ s.lastPublished, lsn ≤ s.commits.length

theorem Bounded.commit (h : Bounded s) (immediate : Bool) (effect : Effect) :
    Bounded (s.commit immediate effect) := by
  refine ⟨(commit_absorbed_le immediate effect h.1).2, ?_⟩
  rw [commit_commits, length_append]
  show ∀ lsn ∈ (if effect.publishes then [s.commits.length + 1] else []), lsn ≤ _
  split_ifs
  · exact forall_mem_singleton.mpr le_rfl
  · exact forall_mem_nil _

/-- A commit that was just taken adds nothing past the end of the log. -/
theorem Bounded.adds (h : Bounded s) {staged : List (Bytes × Option Bytes)}
    (hroot : flush.root = s.absorbed)
    (hpublished : flush.published = s.lastPublished ∨ flush.published = [])
    (hwriteBack : flush.writeBack = s.takeWriteBackPublish staged) (hadds : Adds flush lsn) :
    lsn ≤ s.commits.length := by
  rcases hadds with hbelow | hfed | ⟨m, hm, hrevision⟩
  · rw [hroot] at hbelow
    exact hbelow.trans h.1
  · rcases hpublished with hsame | hnone
    · rw [hsame] at hfed
      exact h.2 lsn hfed
    · rw [hnone] at hfed
      cases hfed
  · rw [hwriteBack, takeWriteBackPublish] at hm
    split_ifs at hm
    · obtain ⟨_, -, rfl⟩ := mem_map.mp hm
      exact le_of_eq hrevision.symm
    · cases hm

section

variable (h : Hidden opened s) {seen : Option Replication}
include h

/-- The queue stays, and what was durable is. -/
theorem Hidden.turn (hopened : t.opened = s.opened)
    (hdurable : ∀ {lsn}, Durable s lsn → Durable t lsn) (hfailed : t.failed = s.failed)
    (hqueue : t.group ++ t.queue = s.group ++ s.queue) (hsynced : t.synced ≤ t.commits.length)
    (hbounded : Bounded t) (hheard : Heard t t.stage)
    (hshows : ∀ {lsn}, Shows t lsn → Shows s lsn ∨ Durable t lsn)
    (hlast : Ended t t.commits.length ∨ t.commits.length = s.commits.length) :
    Hidden opened t := by
  have hended : ∀ {lsn}, Ended s lsn → Ended t lsn :=
    fun hdone => hdone.imp hdurable (fun hle => by rw [hfailed]; exact hle)
  refine ⟨hopened.trans h.opened, hbounded.1, hsynced, hbounded.2,
    fun hshown => (hshows hshown).elim (fun hold => hdurable (h.shows hold)) id, hheard, ?_, ?_⟩
  · rw [hqueue]
    exact h.ordered.mono hended (fun hc => .inr hc)
  · rcases hlast with hlast | hsame
    · exact .inl hlast
    · rw [hqueue, hsame]
      exact h.last.imp hended id

/-- Commits are added and more of them are synced. -/
theorem Hidden.grow (hminAcks : t.replication.minAcks = s.replication.minAcks)
    (hopened : t.opened = s.opened) (hreached : t.reached = s.reached)
    (hfailed : t.failed = s.failed) (hstage : t.stage = s.stage) (hgroup : t.group = s.group)
    (hqueue : t.queue = s.queue) (hsyncs : s.synced ≤ t.synced)
    (hsynced : t.synced ≤ t.commits.length) (hbounded : Bounded t)
    (hshows : ∀ {lsn}, Shows t lsn → Shows s lsn ∨ Durable t lsn)
    (hlast : Ended t t.commits.length ∨ t.commits.length = s.commits.length) :
    Hidden opened t := by
  have hreached' : ∀ q ∈ s.reached, q ∈ t.reached := by
    rw [hreached]
    exact fun q hq => hq
  refine h.turn hopened (fun hdurable => ⟨hdurable.1.trans hsyncs,
    hdurable.2.mono hminAcks hopened hreached'⟩) hfailed (by rw [hgroup, hqueue]) hsynced hbounded ?_
    hshows hlast
  rw [hstage]
  exact h.heard.mono hgroup hminAcks hopened hreached'

/-- A commit that adds nothing but what has ended or waits is queued. -/
theorem Hidden.push (hadds : ∀ {lsn}, Adds flush lsn → lsn ≤ s.commits.length) :
    Hidden opened (s.push flush) := by
  have hlast : Ended s s.commits.length ∨
      Ahead (s.group ++ s.queue ++ [flush]) s.commits.length :=
    h.last.imp id (fun hahead => hahead.mono (fun f hf => mem_append_left _ hf))
  refine ⟨h.opened, h.absorbed, h.synced, h.staged, h.shows, h.heard.mono rfl rfl rfl
    (fun q hq => hq), ?_, ?_⟩
  · show InOrder _ [] (s.group ++ (s.queue ++ [flush]))
    rw [← append_assoc]
    have hordered : InOrder (s.push flush) [] (s.group ++ s.queue) :=
      h.ordered.mono id (fun hc => .inr hc)
    refine hordered.append (fun lsn hlsn => ?_)
    have hle := hadds hlsn
    exact hlast.imp (fun hdone => hdone.imp (fun hdurable => hdurable.below hle) hle.trans)
      (fun ⟨f, hf, own, hown, hlsn⟩ => ⟨f, hf, own, hown, hle.trans hlsn⟩)
  · show Ended s s.commits.length ∨ Ahead (s.group ++ (s.queue ++ [flush])) s.commits.length
    rw [← append_assoc]
    exact hlast

theorem Hidden.bounded : Bounded s := ⟨h.absorbed, h.staged⟩

/-- A commit waits for its own barrier. -/
theorem Hidden.batch {requests : List Request} {effect : Option Effect} :
    Hidden opened (s.batch requests effect) := by
  cases effect with
  | none =>
    have hreset : Hidden opened { s with lastPublished := [] } :=
      h.grow rfl rfl rfl rfl rfl rfl rfl le_rfl h.synced
        ⟨h.absorbed, nofun⟩ .inl (.inr rfl)
    exact hreset.push (hreset.bounded.adds rfl (.inl rfl) rfl)
  | some effect =>
    have hbounded := h.bounded.commit false effect
    have hended : ∀ {lsn}, Ended s lsn → Ended (s.batch requests (some effect)) lsn :=
      fun hdone => hdone
    refine ⟨h.opened, hbounded.1, ?_, hbounded.2, fun hshown => h.shows hshown,
      h.heard.mono rfl rfl rfl (fun q hq => hq), ?_, ?_⟩
    · show s.synced ≤ (s.commits ++ [effect.mutations]).length
      rw [length_append]
      exact Nat.le_add_right_of_le h.synced
    · show InOrder _ [] (s.group ++ (s.queue ++ [_]))
      rw [← append_assoc]
      refine (h.ordered.mono hended (fun hc => .inr hc)).append (fun lsn hadds => .inr ?_)
      exact ahead_last rfl (hbounded.adds rfl (.inl rfl) rfl hadds)
    · show Ended _ _ ∨ Ahead (s.group ++ (s.queue ++ [_])) (s.commit false effect).commits.length
      rw [← append_assoc]
      exact .inr (ahead_last rfl le_rfl)

section

variable (hnone : s.replication.minAcks = 0) {request : Request}
include hnone

/-- Without replicas, a commit behind its own sync has passed its barrier. -/
theorem Hidden.commit (effect : Effect) :
    Hidden opened (s.commit true effect) := by
  have hlength : (s.commits ++ [effect.mutations]).length = s.commits.length + 1 :=
    length_append
  exact h.grow rfl rfl rfl rfl rfl rfl rfl (Nat.le_succ_of_le h.synced) hlength.ge
    (h.bounded.commit true effect) .inl (.inl (.inl ⟨hlength.le, .inl hnone⟩))

theorem Hidden.document {effects : List Effect} {ok : Bool} :
    Hidden opened (s.document request effects ok) := by
  have hcommitted := (foldl_commit (I := fun s => Hidden opened s ∧ s.replication.minAcks = 0)
    (fun h => ⟨h.1.commit h.2 _, h.2⟩) ⟨h, hnone⟩ effects).1
  rw [Shard.document]
  split_ifs
  · exact hcommitted.push (hcommitted.bounded.adds rfl (.inl rfl) rfl)
  · exact hcommitted

theorem Hidden.index {effect : Effect} : Hidden opened (s.index request effect) := by
  have hcommitted := h.commit hnone effect
  have hqueued : Hidden opened (s.indexed effect) := by
    rw [indexed]
    split_ifs
    · exact hcommitted
    · exact hcommitted.push (hcommitted.bounded.adds rfl (.inr rfl) rfl)
  exact hqueued.grow rfl rfl rfl rfl rfl rfl rfl le_rfl hqueued.synced
    ⟨hqueued.absorbed, hqueued.staged⟩ .inl (.inr rfl)

end

section

variable (hbarriered : Barriered minAcks s)
include hbarriered

/-- A group that fails has ended. -/
theorem Hidden.expire {flushed : Bool} (hstage : s.stage = .barrier lsn flushed seen) :
    Hidden opened { s with group := [], stage := .idle, failed := max s.failed lsn } := by
  have hwaited := hbarriered.waited
  rw [hstage] at hwaited
  have hended : ∀ {own}, Ended s own →
      Ended { s with group := [], stage := .idle, failed := max s.failed lsn } own :=
    fun hdone => hdone.imp id (fun hle => hle.trans (le_max_left _ _))
  have hgone : ∀ {own}, Ahead s.group own →
      Ended { s with group := [], stage := .idle, failed := max s.failed lsn } own := by
    rintro own ⟨flush, hflush, highest, hhighest, hle⟩
    exact .inr (Nat.le_trans (hle.trans (hwaited.1 flush hflush highest hhighest))
      (le_max_right s.failed lsn))
  refine ⟨h.opened, h.absorbed, h.synced, h.staged, h.shows, trivial, ?_, ?_⟩
  · exact h.ordered.drop.mono hended (fun hahead => .inl (hgone hahead))
  · rcases h.last with hdone | ⟨flush, hflush, hown⟩
    · exact .inl (hended hdone)
    · rcases mem_append.mp hflush with hflush | hflush
      · exact .inl (hgone ⟨flush, hflush, hown⟩)
      · exact .inr ⟨flush, hflush, hown⟩

/-- Publishing the first of a group shows what has passed its barrier. -/
theorem Hidden.publish {rest : List PendingFlush} (hfailed : Durable s s.failed)
    (hstage : s.stage = .publishing seen) (hgroup : s.group = flush :: rest)
    (hreader : ∀ {lsn}, Reads reader lsn → Reads s.reader lsn ∨ Adds flush lsn) :
    Hidden opened (s.publishCommit seen flush rest reader) := by
  have hwaited := hbarriered.waited
  have hheard := h.heard
  rw [hstage] at hwaited hheard
  have hpassed : ∀ other ∈ s.group, ∀ own ∈ other.lsn, Durable s own := fun other hother own hown =>
    ⟨(hwaited other hother own hown).1, hheard other hother own hown⟩
  have hfront : ∀ {lsn}, Ahead [flush] lsn → Durable s lsn := by
    rintro lsn ⟨other, hother, own, hown, hle⟩
    rw [mem_singleton.mp hother] at hown
    exact (hpassed flush (hgroup ▸ mem_cons_self) own hown).below hle
  have hended : ∀ {lsn}, Ended s lsn → Durable s lsn :=
    fun hdone => hdone.elim id hfailed.below
  have hordered := h.ordered
  rw [hgroup, cons_append] at hordered
  have hadds : ∀ {lsn}, Adds flush lsn → Durable s lsn :=
    fun hadds => (hordered.1 _ hadds).elim hended hfront
  refine ⟨h.opened, h.absorbed, h.synced, h.staged, ?_, ?_, ?_, ?_⟩
  · rintro lsn (hread | hsnapshot | hfed | hreplayed)
    · exact (hreader hread).elim (fun hold => h.shows (.inl hold)) hadds
    · exact h.shows (.inr (.inl hsnapshot))
    · rcases mem_append.mp hfed with hfed | hfed
      · exact h.shows (.inr (.inr (.inl hfed)))
      · exact hadds (.inr (.inl hfed))
    · exact h.shows (.inr (.inr (.inr hreplayed)))
  · show Heard _ (if rest.isEmpty then .idle else .publishing seen)
    split_ifs
    · trivial
    · exact fun other hother => hheard other (by rw [hgroup]; exact mem_cons_of_mem _ hother)
  · exact hordered.2.mono id (fun hahead => .inl (.inl (hfront hahead)))
  · rcases h.last with hdone | ⟨other, hother, hown⟩
    · exact .inl hdone
    · rw [hgroup, cons_append] at hother
      rcases mem_cons.mp hother with rfl | hother
      · exact .inl (.inl (hfront ⟨other, mem_singleton_self _, hown⟩))
      · exact .inr ⟨other, hother, hown⟩

theorem Hidden.step {event : Event} (hquiet : Quiet s event) (hstep : Step s event t) :
    Hidden opened t := by
  have hheard := h.heard
  have hbounded := h.bounded
  cases hstep.move with
  | batch => exact h.batch
  | refuse =>
    exact h.grow rfl rfl rfl rfl rfl rfl rfl le_rfl h.synced
      ⟨h.absorbed, by rintro _ ⟨⟩⟩ .inl (.inr rfl)
  | document => exact h.document hquiet
  | index => exact h.index hquiet
  | take hidle =>
    refine h.turn rfl id rfl (take_queue hbarriered hidle) h.synced hbounded ?_ .inl (.inr rfl)
    obtain ⟨lsn, -, hstage⟩ | ⟨hnone, hstage⟩ := s.take_stage
    · rw [hstage]
      trivial
    · rw [hstage]
      intro flush hflush own hlsn
      cases (hnone flush hflush).symm.trans hlsn
  | @sync _ _ seen hstage _ hcovered =>
    refine h.turn rfl (fun hdone => ⟨hdone.1.trans (le_max_left _ _), hdone.2⟩) rfl rfl
      (Nat.max_le.mpr ⟨h.synced, hcovered⟩) hbounded ?_ .inl (.inr rfl)
    rw [hstage] at hheard
    cases seen with
    | none => trivial
    | some => exact hheard
  | @quorum =>
    refine h.turn rfl (fun hdurable => ⟨hdurable.1, hdurable.2.mono rfl rfl
      (fun q hq => mem_append_left _ hq)⟩) rfl rfl h.synced hbounded ?_ .inl (.inr rfl)
    exact .inr (.inr ⟨_, mem_append_right _ (mem_singleton_self _), le_rfl⟩)
  | @pass _ _ hstage =>
    have hwaited := hbarriered.waited
    rw [hstage] at hheard hwaited
    refine h.turn rfl id rfl rfl h.synced hbounded ?_ .inl (.inr rfl)
    exact fun flush hflush own hown => Acked.below hheard (hwaited.1 flush hflush own hown)
  | expire hstage => exact h.expire hbarriered hstage
  | publish hstage hgroup hreader =>
    exact h.publish hbarriered hquiet hstage hgroup (reads_refreshReader hreader)
  | skip hstage hgroup => exact h.publish hbarriered hquiet hstage hgroup .inl
  | register | acknowledge | deregister =>
    exact h.grow rfl rfl rfl rfl rfl rfl rfl le_rfl h.synced hbounded .inl (.inr rfl)
  | checkpoint =>
    exact h.grow rfl rfl rfl rfl rfl rfl rfl h.synced le_rfl ⟨le_rfl, h.staged⟩ .inl (.inr rfl)
  | republish hrepublish =>
    obtain ⟨reader, hrefresh, hreader⟩ := bind_eq_ok.mp hrepublish
    cases hreader
    refine h.grow rfl rfl rfl rfl rfl rfl rfl le_rfl h.synced hbounded ?_ (.inr rfl)
    rintro lsn (hread | hrest)
    · have hread : Reads reader lsn := by
        have hread : Reads (if s.writeBack then reader.evictWriteBackThrough s.absorbed
          else reader) lsn := hread
        split_ifs at hread
        · exact reads_evictWriteBackThrough hread
        · exact hread
      rcases reads_refresh hrefresh hread with hold | hroot
      · exact .inl (.inl hold)
      · exact .inr (hquiet.below (hroot.trans h.absorbed))
    · exact .inl (.inr hrest)
  | begin =>
    refine h.grow rfl rfl rfl rfl rfl rfl rfl le_rfl h.synced hbounded ?_ (.inr rfl)
    rintro lsn (hread | ⟨snapshot, hsnapshot, hle⟩ | hrest)
    · exact .inl (.inl hread)
    · rcases mem_append.mp hsnapshot with hsnapshot | hsnapshot
      · exact .inl (.inr (.inl ⟨snapshot, hsnapshot, hle⟩))
      · exact .inr (hquiet.below (mem_singleton.mp hsnapshot ▸ hle))
    · exact .inl (.inr (.inr hrest))
  | replay =>
    refine h.grow rfl rfl rfl rfl rfl rfl rfl le_rfl h.synced hbounded ?_ (.inr rfl)
    rintro lsn (hread | hsnapshot | hfed | hle)
    · exact .inl (.inl hread)
    · exact .inl (.inr (.inl hsnapshot))
    · exact .inl (.inr (.inr (.inl hfed)))
    · exact .inr (hquiet.below hle)

end

end

theorem Started.hidden (h : Started s) : Hidden s.commits.length s := by
  have hdurable : ∀ {lsn}, lsn ≤ s.commits.length → Durable s lsn := fun hle =>
    ⟨hle.trans h.synced.ge, .inr (.inl (hle.trans h.opened.ge))⟩
  refine ⟨h.opened, le_of_eq h.absorbed, le_of_eq h.synced, by simp [h.lastPublished], ?_,
    ?_, ?_, .inl (.inl (hdurable le_rfl))⟩
  · rintro lsn ((htree | ⟨overlay, hoverlay, e, he, -⟩) | ⟨snapshot, hsnapshot, -⟩ | hfed | hle)
    · rw [h.tree] at htree
      exact hdurable htree
    · rw [h.overlay] at hoverlay
      split_ifs at hoverlay
      · cases hoverlay
        cases he
      · cases hoverlay
    · rw [h.snapshots] at hsnapshot
      cases hsnapshot
    · rw [h.feed] at hfed
      cases hfed
    · rw [h.replayed] at hle
      exact hdurable (hle.trans (Nat.zero_le _))
  · rw [h.stage]
    trivial
  · rw [h.group, h.queue]
    trivial

end Hidden

/-- **VISIBLE**: what can be returned was synced, and acknowledged by `minAcks` streams unless it
    was there when the shard was opened. -/
theorem visible_after_barrier {start s : Shard} {events : List Event} (hstart : Started start)
    (hrun : Run Step Quiet start events s) {lsn : Nat} (hshown : Shows s lsn) :
    lsn ≤ s.synced ∧ (0 < start.replication.minAcks → start.commits.length < lsn →
      ∃ q ∈ s.reached, start.replication.minAcks ≤ q.2.ackedAtLeast lsn) := by
  obtain ⟨hbarriered, h⟩ : Barriered start.replication.minAcks s ∧
      Hidden start.commits.length s := by
    refine hrun.invariant (I := fun s => Barriered start.replication.minAcks s ∧
      Hidden start.commits.length s) ?_ ⟨hstart.barriered, hstart.hidden⟩
    rintro t u event ⟨hbarriered, h⟩ hquiet hstep
    exact ⟨hbarriered.step hstep, h.step hbarriered hquiet hstep⟩
  obtain ⟨hsynced, hacked⟩ := h.shows hshown
  refine ⟨hsynced, fun hreplicas hnew => ?_⟩
  rcases hacked with hnone | hopened | ⟨q, hq, hle⟩
  · rw [hbarriered.configured] at hnone
    omega
  · rw [h.opened] at hopened
    omega
  · exact ⟨q, hq, (hbarriered.reached q hq).trans (q.2.ackedAtLeast_anti hle)⟩

/-- A transaction that begins once a put has been answered. -/
theorem visible_after_barrier_one_put :
    ∃ s, Run Step Quiet (fresh false 1) (putWithReplica ++ [Event.begin]) s ∧
      Shows s 1 ∧ 1 ≤ s.synced ∧ ∃ q ∈ s.reached, 1 ≤ q.2.ackedAtLeast 1 := by
  refine exists_run_of act id (p := fun s => 1 ∈ s.snapshots)
    (by decide +kernel) (fun s hrun hsnapshot => ?_)
  have hshown : Shows s 1 := .inr (.inl ⟨1, hsnapshot, Nat.le_refl 1⟩)
  have hvisible := visible_after_barrier (fresh_started false 1) hrun hshown
  exact ⟨hshown, hvisible.1, hvisible.2 Nat.one_pos Nat.one_pos⟩

/-- **TOO EARLY**: a transaction that begins while a batch waits for its sync reads the batch. -/
theorem snapshot_before_sync :
    ∃ s, Run Step (fun _ _ => True) (fresh false 0)
        [.batch [.put 0] (some ⟨[([107], some [118])], true, false⟩), .begin] s ∧
      Shows s 1 ∧ s.synced = 0 := by
  refine exists_run_of act id (p := fun s => 1 ∈ s.snapshots ∧ s.synced = 0)
    (by decide +kernel) (fun s _ hfacts => ?_)
  exact ⟨.inr (.inl ⟨1, hfacts.1, Nat.le_refl 1⟩), hfacts.2⟩

end Shard

end Vyrn
