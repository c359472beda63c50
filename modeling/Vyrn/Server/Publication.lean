import Vyrn.Server.Handle

/-!
# Publication in commit order

A read handle should serve the map after some commit, and never go back. Two tasks move it: the
flush worker publishes what is queued, and the checkpoint task republishes the compacted tree. The
queue is in the order of the log (`Lined`), and with write-back it also continues the log
publication by publication (`Chained`), where the trees of later generations make up for what a
retired generation did not publish. **`handle_serves_commits`** is the result over every run that is
`Steady`; **`handle_goes_back`** is a republication that overtakes a queued commit.
-/

namespace Vyrn

open SortedMap List Transition

namespace Shard

variable {rest : List PendingFlush} {minAcks : Nat} {request : Request} {requests : List Request}
  {effects : List Effect} {seen : Option Replication} {effect : Option Effect}
  {flush : PendingFlush} {event : Event} {ok : Bool}

/-- The condition on an event. The checkpoint task does not overtake what is queued, unless there
    is no buffer and all of it is of an older generation; with write-back no group fails, and a
    document write makes one commit at most and none when it fails. -/
@[reducible] def Steady (s : Shard) : Event → Prop
  | .republish =>
    ∀ flush ∈ s.group ++ s.queue, s.writeBack = false ∧ flush.generation < s.generation
  | .expire => s.writeBack = false
  | .document _ effects ok => s.writeBack = true → effects.length ≤ 1 ∧ (ok = false → effects = [])
  | _ => True

instance (s : Shard) (event : Event) : Decidable (Steady s event) := by
  cases event <;> infer_instance

/-- The handle and the queue in front of it are in the order of the log. -/
structure Lined (s : Shard) : Prop where
  absorbed : s.absorbed ≤ s.commits.length
  generation : s.reader.generation ≤ s.generation
  tree : s.reader.tree ≤ s.absorbed
  bound : ∀ flush ∈ s.group ++ s.queue, flush.generation ≤ s.generation ∧ flush.root ≤ s.absorbed
  sorted : (s.group ++ s.queue).Pairwise
    (fun flush later => flush.generation ≤ later.generation ∧ flush.root ≤ later.root)
  ahead : ∀ flush ∈ s.group ++ s.queue, s.reader.generation ≤ flush.generation →
    s.reader.tree ≤ flush.root
  plain : s.writeBack = false → s.reader.overlay = none ∧
    ∀ flush ∈ s.group ++ s.queue, flush.writeBack = ⟨[], none⟩

/-- One publication with write-back, from one point of the log to the next. What was committed
    before a checkpoint is in the trees of the generations behind it. -/
structure Link (s : Shard) (flush : PendingFlush) (rest : List PendingFlush) (before after : Nat) :
    Prop where
  carried : Carried s.commits before flush.writeBack.mutations after
  absorbed : flush.writeBack.absorbedThrough = some flush.root
  root : flush.root ≤ after
  records : ∀ lsn ∈ flush.records, lsn ≤ after
  retired : flush.generation < s.generation → after ≤ s.absorbed
  newer : ∀ later ∈ rest, flush.generation < later.generation → after ≤ later.root

/-- The publications lead to the end of the log. -/
def Chained (s : Shard) : Nat → List PendingFlush → Prop
  | before, [] => before = s.commits.length
  | before, flush :: rest => ∃ after, Link s flush rest before after ∧ Chained s after rest

/-- With write-back, the handle serves the first `lsn` commits and was given the first `before`.
    What it was given and does not serve was skipped: its generation was retired, and every
    publication that can still reach the handle has it in its tree. -/
structure Learned (s : Shard) (lsn before : Nat) : Prop where
  overlay : s.reader.overlay.isSome
  exact : Exact s.commits s.reader lsn
  chained : Chained s before (s.group ++ s.queue)
  behind : ∀ flush ∈ s.group ++ s.queue, s.reader.generation ≤ flush.generation
  skipped : lsn = before ∨ (lsn ≤ before ∧ before ≤ s.absorbed ∧
    s.reader.generation < s.generation ∧ ∀ flush ∈ s.group ++ s.queue,
      s.reader.generation < flush.generation ∧
        (flush.generation = s.generation → before ≤ flush.root))

section Lined

variable {s t : Shard} {flush : PendingFlush} {reader : ReadEngine Nat}

section

variable (h : Lined s)
include h

/-- The log grows, the handle stays, and some of what is queued may go. -/
theorem Lined.shrink (hmode : t.writeBack = s.writeBack) (hreader : t.reader = s.reader)
    (hgeneration : s.generation ≤ t.generation) (habsorbed : s.absorbed ≤ t.absorbed)
    (hlength : t.absorbed ≤ t.commits.length)
    (hqueue : (t.group ++ t.queue).Sublist (s.group ++ s.queue)) : Lined t := by
  refine ⟨hlength, ?_, ?_, fun flush hflush => ?_, h.sorted.sublist hqueue, ?_, fun hplain => ?_⟩
  · rw [hreader]
    exact h.generation.trans hgeneration
  · rw [hreader]
    exact h.tree.trans habsorbed
  · obtain ⟨hbound, hroot⟩ := h.bound flush (hqueue.subset hflush)
    exact ⟨hbound.trans hgeneration, hroot.trans habsorbed⟩
  · rw [hreader]
    exact fun flush hflush => h.ahead flush (hqueue.subset hflush)
  · rw [hmode] at hplain
    rw [hreader]
    exact ⟨(h.plain hplain).1, fun flush hflush => (h.plain hplain).2 flush (hqueue.subset hflush)⟩

theorem Lined.commit (immediate : Bool) (effect : Effect) : Lined (s.commit immediate effect) := by
  obtain ⟨hgrows, hlength⟩ := commit_absorbed_le immediate effect h.absorbed
  exact h.shrink rfl rfl le_rfl hgrows hlength (Sublist.refl _)

theorem Lined.commits (effects : List Effect) : Lined (effects.foldl (Shard.commit true) s) :=
  foldl_commit (fun h => h.commit true _) h effects

theorem Lined.push (hgeneration : flush.generation = s.generation)
    (hroot : flush.root = s.absorbed)
    (hplain : s.writeBack = false → flush.writeBack = ⟨[], none⟩) : Lined (s.push flush) := by
  refine ⟨h.absorbed, h.generation, h.tree,
    forall_push.mpr ⟨h.bound, le_of_eq hgeneration, le_of_eq hroot⟩, ?_,
    forall_push.mpr ⟨h.ahead, fun _ => ?_⟩, fun hmode => ⟨(h.plain hmode).1,
      forall_push.mpr ⟨(h.plain hmode).2, hplain hmode⟩⟩⟩
  · show (s.group ++ (s.queue ++ [flush])).Pairwise _
    rw [← append_assoc, pairwise_append]
    refine ⟨h.sorted, pairwise_singleton _ _, fun other hother last hlast => ?_⟩
    rw [mem_singleton.mp hlast, hgeneration, hroot]
    exact h.bound other hother
  · rw [hroot]
    exact h.tree

omit h in
theorem takeWriteBackPublish_plain {staged : List (Bytes × Option Bytes)}
    (h : s.writeBack = false) : s.takeWriteBackPublish staged = ⟨[], none⟩ := by
  rw [takeWriteBackPublish, h]
  rfl

theorem Lined.batch : Lined (s.batch requests effect) := by
  cases effect with
  | none =>
    have hreset : Lined { s with lastPublished := [] } :=
      h.shrink rfl rfl le_rfl le_rfl h.absorbed (Sublist.refl _)
    exact hreset.push rfl rfl takeWriteBackPublish_plain
  | some effect =>
    exact (h.commit false effect).push rfl rfl takeWriteBackPublish_plain

theorem Lined.document : Lined (s.document request effects ok) := by
  have hcommitted := h.commits effects
  rw [Shard.document]
  split_ifs
  · exact hcommitted.push rfl rfl takeWriteBackPublish_plain
  · exact hcommitted

theorem Lined.index {effect : Effect} : Lined (s.index request effect) := by
  have hcommitted := h.commit true effect
  have hqueued : Lined (s.indexed effect) := by
    rw [indexed]
    split_ifs
    · exact hcommitted
    · exact hcommitted.push rfl rfl takeWriteBackPublish_plain
  exact hqueued.shrink rfl rfl le_rfl le_rfl hqueued.absorbed (Sublist.refl _)

end

/-- An older generation leaves the handle, any other one moves it. -/
theorem refresh_cases {after : ReadEngine Nat} {generation root : Nat} {retired : Bool}
    (h : reader.refresh generation root retired = .ok after) :
    generation < reader.generation ∧ after = reader ∨
      reader.generation ≤ generation ∧
        after = { reader with generation := generation, tree := root } ∧
        (reader.generation < generation → retired = false) := by
  rw [ReadEngine.refresh] at h
  split_ifs at h with hold hother hretired <;> cases h
  · exact .inl ⟨hold, rfl⟩
  · exact .inr ⟨Nat.le_of_not_lt hold, rfl, fun _ => Bool.eq_false_iff.mpr hretired⟩
  · rw [not_not] at hother
    exact .inr ⟨hother.ge, by rw [hother], fun hnewer => absurd hother (ne_of_gt hnewer)⟩

/-- A publication of an older generation leaves the tree alone; another one is not retired unless
    the handle has its generation. -/
theorem refreshReader_moves (h : s.refreshReader flush = .ok reader) :
    (flush.generation < s.reader.generation ∧ reader.generation = s.reader.generation ∧
        reader.tree = s.reader.tree) ∨
      (s.reader.generation ≤ flush.generation ∧ reader.generation = flush.generation ∧
        reader.tree = flush.root ∧
        (s.reader.generation < flush.generation → s.generation ≤ flush.generation)) := by
  obtain ⟨refreshed, hrefresh, hpublish⟩ := bind_eq_ok.mp h
  obtain ⟨hgeneration, htree⟩ : reader.generation = refreshed.generation ∧
      reader.tree = refreshed.tree := by
    rcases ReadEngine.publishWriteBack_cases hpublish with rfl | ⟨_, _, _, _, _, rfl⟩
    · exact ⟨rfl, rfl⟩
    · exact ⟨rfl, rfl⟩
  rw [hgeneration, htree]
  rcases refresh_cases hrefresh with ⟨hold, rfl⟩ | ⟨hnew, rfl, hlive⟩
  · exact .inl ⟨hold, rfl, rfl⟩
  · exact .inr ⟨hnew, rfl, rfl, fun hnewer => not_lt.mp (of_decide_eq_false (hlive hnewer))⟩

theorem refreshReader_plain (h : s.refreshReader flush = .ok reader)
    (hpublish : flush.writeBack = ⟨[], none⟩) (hoverlay : s.reader.overlay = none) :
    reader.overlay = none := by
  obtain ⟨refreshed, hrefresh, hpublished⟩ := bind_eq_ok.mp h
  rw [hpublish] at hpublished
  cases hpublished
  rcases refresh_cases hrefresh with ⟨-, rfl⟩ | ⟨-, rfl, -⟩ <;> exact hoverlay

/-- Publishing the first flush keeps the order of the log. -/
theorem Lined.publish (h : Lined s) (hgroup : s.group = flush :: rest)
    (hreader : s.refreshReader flush = .ok reader) :
    Lined (s.publishCommit seen flush rest reader) := by
  have hmem := fun {other : PendingFlush} => @mem_rest s flush other rest hgroup
  have hhead := mem_head hgroup
  have hsorted := h.sorted
  rw [queue_cons hgroup, pairwise_cons] at hsorted
  have hplain : s.writeBack = false → reader.overlay = none := fun hmode =>
    refreshReader_plain hreader ((h.plain hmode).2 flush hhead) (h.plain hmode).1
  -- the handle stays where it is, or goes to what the publication names
  obtain ⟨hgeneration, htree, hahead⟩ : reader.generation ≤ s.generation ∧
      reader.tree ≤ s.absorbed ∧ ∀ other ∈ rest ++ s.queue,
        reader.generation ≤ other.generation → reader.tree ≤ other.root := by
    rcases refreshReader_moves hreader with ⟨-, hgeneration, htree⟩ | ⟨-, hgeneration, htree, -⟩
    · rw [hgeneration, htree]
      exact ⟨h.generation, h.tree, fun other hother => h.ahead other (hmem hother)⟩
    · rw [hgeneration, htree]
      exact ⟨(h.bound flush hhead).1, (h.bound flush hhead).2,
        fun other hother _ => (hsorted.1 other hother).2⟩
  exact ⟨h.absorbed, hgeneration, htree, fun other hother => h.bound other (hmem hother), hsorted.2,
    hahead, fun hmode =>
      ⟨hplain hmode, fun other hother => (h.plain hmode).2 other (hmem hother)⟩⟩

theorem refresh_moves {after : ReadEngine Nat} {generation root : Nat} {retired : Bool}
    (h : reader.refresh generation root retired = .ok after)
    (hgeneration : reader.generation ≤ generation) :
    after = { reader with generation := generation, tree := root } :=
  ((refresh_cases h).resolve_left (fun hold => not_lt.mpr hgeneration hold.1)).2.1

theorem republish_moves (hgeneration : s.reader.generation ≤ s.generation)
    (h : s.republish = .ok t) : ∃ reader, t = { s with reader := reader } ∧
      reader.generation = s.generation ∧ reader.tree = s.absorbed ∧
      (s.reader.overlay = none → reader.overlay = none) := by
  obtain ⟨refreshed, hrefresh, ht⟩ := bind_eq_ok.mp h
  cases refresh_moves hrefresh hgeneration
  cases ht
  refine ⟨_, rfl, ?_⟩
  split_ifs
  · rw [ReadEngine.evictWriteBackThrough]
    split
    · exact ⟨rfl, rfl, fun hnone => hnone⟩
    · next hsome =>
        split_ifs
        · exact ⟨rfl, rfl, fun hnone => nomatch hsome.symm.trans hnone⟩
        · exact ⟨rfl, rfl, fun hnone => hnone⟩
  · exact ⟨rfl, rfl, fun hnone => hnone⟩

theorem Lined.republish (h : Lined s) (hsteady : Steady s .republish) (ht : s.republish = .ok t) :
    Lined t := by
  obtain ⟨reader, rfl, hgeneration, htree, hoverlay⟩ := republish_moves h.generation ht
  refine ⟨h.absorbed, le_of_eq hgeneration, le_of_eq htree, h.bound, h.sorted,
    fun flush hflush hnewer => ?_, fun hmode => ⟨hoverlay (h.plain hmode).1, (h.plain hmode).2⟩⟩
  have hnewer : reader.generation ≤ flush.generation := hnewer
  rw [hgeneration] at hnewer
  exact absurd (hsteady flush hflush).2 (not_lt.mpr hnewer)

theorem Lined.step (h : Lined s) (hbarriered : Barriered minAcks s) (hsteady : Steady s event)
    (hstep : Step s event t) : Lined t := by
  cases hstep.move with
  | batch => exact h.batch
  | document => exact h.document
  | index => exact h.index
  | take hidle =>
    refine h.shrink rfl rfl le_rfl le_rfl h.absorbed ?_
    rw [take_queue hbarriered hidle]
  | expire =>
    exact h.shrink rfl rfl le_rfl le_rfl h.absorbed (sublist_append_right _ _)
  | publish _ hgroup hreader => exact h.publish hgroup hreader
  | skip _ hgroup =>
    refine h.shrink rfl rfl le_rfl le_rfl h.absorbed ?_
    rw [hgroup, cons_append]
    exact sublist_cons_self _ _
  | checkpoint =>
    exact h.shrink rfl rfl (Nat.le_succ _) h.absorbed le_rfl (Sublist.refl _)
  | republish ht => exact h.republish hsteady ht
  | refuse | sync | quorum | pass | register | acknowledge | deregister | begin | replay =>
    exact h.shrink rfl rfl le_rfl le_rfl h.absorbed (Sublist.refl _)

theorem Started.lined (h : Started s) : Lined s := by
  refine ⟨le_of_eq h.absorbed, le_of_eq h.generation, ?_, by simp [h.group, h.queue],
    by simp [h.group, h.queue], by simp [h.group, h.queue], fun hmode => ⟨?_, by
      simp [h.group, h.queue]⟩⟩
  · rw [h.tree, h.absorbed]
  · rw [h.overlay, hmode]
    rfl

end Lined

/-! ## Write-back -/

section Learned

variable {s t : Shard} {lsn before : Nat} {flushes : List PendingFlush} {overlay : Overlay}
  {flush : PendingFlush} {reader : ReadEngine Nat} {more : List (List (Bytes × Option Bytes))}
  {error : Error}

section

variable (h : Chained s before flushes)
include h

theorem Chained.le : before ≤ s.commits.length := by
  induction flushes generalizing before with
  | nil => exact le_of_eq h
  | cons flush rest ih =>
    obtain ⟨after, hlink, hrest⟩ := h
    exact hlink.carried.le.trans (ih hrest)

/-- The log and its generation stay, or the tree holds all of it. -/
theorem Chained.keep (hcommits : t.commits = s.commits) (habsorbed : s.absorbed ≤ t.absorbed)
    (hgeneration : t.generation = s.generation ∨ t.absorbed = s.commits.length) :
    Chained t before flushes := by
  induction flushes generalizing before with
  | nil =>
    show before = t.commits.length
    rw [hcommits]
    exact h
  | cons flush rest ih =>
    obtain ⟨after, hlink, hrest⟩ := h
    refine ⟨after, ⟨?_, hlink.absorbed, hlink.root, hlink.records, fun hretired => ?_,
      hlink.newer⟩, ih hrest⟩
    · rw [hcommits]
      exact hlink.carried
    · rcases hgeneration with hsame | hall
      · rw [hsame] at hretired
        exact (hlink.retired hretired).trans habsorbed
      · rw [hall]
        exact hrest.le

/-- One more publication, of what was committed since. -/
theorem Chained.push (hcommits : t.commits = s.commits ++ more)
    (hgeneration : t.generation = s.generation) (habsorbed : s.absorbed ≤ flush.root)
    (hroot : flush.root = t.absorbed) (hown : flush.generation = s.generation)
    (hlink : Link t flush [] s.commits.length t.commits.length) :
    Chained t before (flushes ++ [flush]) := by
  induction flushes generalizing before with
  | nil =>
    cases h
    exact ⟨_, hlink, rfl⟩
  | cons first rest ih =>
    obtain ⟨after, hfirst, hrest⟩ := h
    refine ⟨after, ⟨?_, hfirst.absorbed, hfirst.root, hfirst.records, fun hretired => ?_,
      fun later hlater hnewer => ?_⟩, ih hrest⟩
    · rw [hcommits]
      exact hfirst.carried.append more
    · rw [hgeneration] at hretired
      rw [← hroot]
      exact (hfirst.retired hretired).trans habsorbed
    · rcases mem_append.mp hlater with hlater | hlater
      · exact hfirst.newer later hlater hnewer
      · rw [mem_singleton.mp hlater] at hnewer ⊢
        rw [hown] at hnewer
        exact (hfirst.retired hnewer).trans habsorbed

end

theorem Learned.le (h : Learned s lsn before) : lsn ≤ before :=
  h.skipped.elim le_of_eq And.left

/-- Nothing that matters to the handle moves. -/
theorem Learned.same (h : Learned s lsn before) (hcommits : t.commits = s.commits)
    (habsorbed : t.absorbed = s.absorbed) (hgeneration : t.generation = s.generation)
    (hreader : t.reader = s.reader) (hqueue : t.group ++ t.queue = s.group ++ s.queue) :
    Learned t lsn before := by
  refine ⟨?_, ?_, ?_, ?_, ?_⟩
  · rw [hreader]
    exact h.overlay
  · rw [hcommits, hreader]
    exact h.exact
  · rw [hqueue]
    exact h.chained.keep hcommits (le_of_eq habsorbed.symm) (.inl hgeneration)
  · rw [hqueue, hreader]
    exact h.behind
  · rw [hqueue, hreader, habsorbed, hgeneration]
    exact h.skipped

theorem Learned.checkpoint (h : Learned s lsn before) (hlined : Lined s) :
    Learned s.checkpoint lsn before := by
  refine ⟨h.overlay, h.exact, h.chained.keep rfl hlined.absorbed (.inr rfl), h.behind, ?_⟩
  refine h.skipped.imp id (fun ⟨hle, _, hgeneration, hqueued⟩ => ⟨hle, h.chained.le,
    Nat.lt_succ_of_lt hgeneration, fun flush hflush => ⟨(hqueued flush hflush).1, fun hnow => ?_⟩⟩)
  have hbound := (hlined.bound flush hflush).1
  have hnow : flush.generation = s.generation + 1 := hnow
  omega

/-- A commit joins the queue, behind what the handle was given. -/
theorem Learned.push (h : Learned s lsn before) (hlined : Lined s)
    (hcommits : t.commits = s.commits ++ more) (hgeneration : t.generation = s.generation)
    (hreader : t.reader = s.reader) (hqueue : t.group ++ t.queue = s.group ++ s.queue ++ [flush])
    (habsorbed : s.absorbed ≤ t.absorbed) (hlength : t.absorbed ≤ t.commits.length)
    (hroot : flush.root = t.absorbed) (hown : flush.generation = s.generation)
    (hcarried : Carried t.commits s.commits.length flush.writeBack.mutations t.commits.length)
    (hthrough : flush.writeBack.absorbedThrough = some t.absorbed)
    (hrecords : ∀ record ∈ flush.records, record ≤ t.commits.length) : Learned t lsn before := by
  have hlink : Link t flush [] s.commits.length t.commits.length :=
    ⟨hcarried, hroot ▸ hthrough, hroot ▸ hlength, hrecords,
      fun hretired => absurd hretired (not_lt.mpr (le_of_eq (hgeneration.trans hown.symm))),
      nofun⟩
  rw [append_assoc] at hqueue
  refine ⟨?_, ?_, ?_, ?_, ?_⟩
  · rw [hreader]
    exact h.overlay
  · rw [hcommits, hreader]
    exact h.exact.append more
  · rw [hqueue, ← append_assoc]
    exact h.chained.push hcommits hgeneration (by rw [hroot]; exact habsorbed) hroot hown hlink
  · rw [hqueue, hreader]
    exact forall_push.mpr ⟨h.behind, hown ▸ hlined.generation⟩
  · rw [hqueue, hreader, hgeneration]
    refine h.skipped.imp id (fun ⟨hle, hskipped, hnewer, hqueued⟩ => ⟨hle,
      hskipped.trans habsorbed, hnewer, forall_push.mpr ⟨hqueued, hown ▸ hnewer, fun _ => ?_⟩⟩)
    rw [hroot]
    exact hskipped.trans habsorbed

theorem carried_commit (h : s.writeBack = true) (immediate : Bool) (effect : Effect) :
    Carried (s.commit immediate effect).commits s.commits.length
      ((s.commit immediate effect).takeWriteBackPublish effect.mutations).mutations
      (s.commit immediate effect).commits.length := by
  have hlength : (s.commit immediate effect).commits.length = s.commits.length + 1 :=
    length_append
  have hmode : (s.commit immediate effect).writeBack = true := h
  rw [takeWriteBackPublish, hmode, hlength]
  refine .commit ?_
  rw [commit_commits, getElem?_append_right le_rfl, Nat.sub_self]
  rfl

section

variable (h : Learned s lsn before) (hlined : Lined s) (hmode : s.writeBack = true)
include h hlined hmode

/-- A commit that is published on its own. -/
theorem Learned.commit (immediate : Bool) (effect : Effect)
    (hwriteBack : flush.writeBack = (s.commit immediate effect).takeWriteBackPublish
      effect.mutations)
    (hgeneration : flush.generation = s.generation)
    (hroot : flush.root = (s.commit immediate effect).absorbed)
    (hrecords : ∀ record ∈ flush.records, record ≤ (s.commit immediate effect).commits.length) :
    Learned ((s.commit immediate effect).push flush) lsn before := by
  obtain ⟨hgrows, hlength⟩ := commit_absorbed_le immediate effect hlined.absorbed
  refine h.push (t := (s.commit immediate effect).push flush) hlined rfl rfl rfl
    (append_assoc _ _ _).symm hgrows hlength hroot hgeneration ?_ ?_ hrecords
  · rw [hwriteBack]
    exact carried_commit hmode immediate effect
  · have hmode : (s.commit immediate effect).writeBack = true := hmode
    rw [hwriteBack, takeWriteBackPublish, hmode]
    rfl

/-- A publication that brings nothing. -/
theorem Learned.idle (hwriteBack : flush.writeBack = s.takeWriteBackPublish [])
    (hgeneration : flush.generation = s.generation) (hroot : flush.root = s.absorbed)
    (hrecords : flush.records = []) : Learned (s.push flush) lsn before := by
  refine h.push (t := s.push flush) hlined (append_nil _).symm rfl rfl
    (append_assoc _ _ _).symm le_rfl hlined.absorbed hroot hgeneration ?_ ?_ ?_
  · rw [hwriteBack, takeWriteBackPublish, hmode]
    exact .nothing
  · rw [hwriteBack, takeWriteBackPublish, hmode]
    rfl
  · rw [hrecords]
    exact nofun

theorem Learned.batch : Learned (s.batch requests effect) lsn before := by
  cases effect with
  | none =>
    have hreset : Learned { s with lastPublished := [] } lsn before :=
      h.same rfl rfl rfl rfl rfl
    refine hreset.idle ?_ hmode rfl rfl rfl rfl
    exact hlined.shrink rfl rfl le_rfl le_rfl hlined.absorbed (Sublist.refl _)
  | some effect =>
    refine h.commit hlined hmode false effect rfl rfl rfl (fun record hrecord => ?_)
    exact le_of_eq (mem_singleton.mp hrecord)

theorem Learned.document (hsteady : Steady s (.document request effects ok)) :
    Learned (s.document request effects ok) lsn before := by
  obtain ⟨hlength, hfails⟩ := hsteady hmode
  rw [Shard.document]
  rcases effects with _ | ⟨effect, _ | ⟨_, rest⟩⟩
  · split_ifs
    · exact h.idle hlined hmode rfl rfl rfl rfl
    · exact h
  · split_ifs with hok
    · refine h.commit hlined hmode true effect rfl rfl rfl (fun record hrecord => ?_)
      rw [mem_singleton.mp hrecord, commit_commits, length_append]
      exact le_rfl
    · cases hfails (Bool.eq_false_iff.mpr hok)
  · exact absurd hlength (by rw [length_cons, length_cons]; omega)

theorem Learned.index {effect : Effect} : Learned (s.index request effect) lsn before := by
  have hqueued : Learned (s.indexed effect) lsn before := by
    have hmode' : (s.commit true effect).writeBack = true := hmode
    rw [indexed, if_neg]
    · refine h.commit hlined hmode true effect rfl rfl rfl (fun record hrecord => ?_)
      exact le_of_eq (mem_singleton.mp hrecord)
    · rw [indexFlush, takeWriteBackPublish, hmode', if_pos rfl, WriteBackPublish.isEmpty,
        Option.isNone_some, Bool.and_false]
      exact Bool.false_ne_true
  exact hqueued.same rfl rfl rfl rfl rfl

end

theorem refreshReader_learns (hoverlay : s.reader.overlay = some overlay)
    (habsorbed : flush.writeBack.absorbedThrough = some flush.root)
    (hgeneration : s.reader.generation ≤ flush.generation)
    (h : s.refreshReader flush = .ok reader) :
    reader = learn s.reader flush.generation flush.root flush.writeBack.mutations overlay := by
  obtain ⟨refreshed, hrefresh, hpublish⟩ := bind_eq_ok.mp h
  cases refresh_moves hrefresh hgeneration
  rw [ReadEngine.publishWriteBack, WriteBackPublish.isEmpty, habsorbed, Option.isNone_some,
    Bool.and_false, if_neg Bool.false_ne_true] at hpublish
  dsimp only at hpublish
  rw [hoverlay] at hpublish
  rw [learn]
  split_ifs at hpublish ⊢ <;> exact (Except.ok.inj hpublish).symm

/-- Where the handle can be taught, only a retired generation cannot be published. -/
theorem refreshReader_fails (htaught : s.reader.overlay.isSome ∨ flush.writeBack = ⟨[], none⟩)
    (h : s.refreshReader flush = .error error) :
    s.reader.generation < flush.generation ∧ flush.generation < s.generation := by
  have hpublishes : ∀ {reader : ReadEngine Nat}, reader.overlay = s.reader.overlay →
      reader.publishWriteBack flush.writeBack ≠ .error error := by
    intro reader hreader hfails
    rcases htaught with hsome | hplain
    · obtain ⟨overlay, hoverlay⟩ := Option.isSome_iff_exists.mp hsome
      rw [ReadEngine.publishWriteBack] at hfails
      split_ifs at hfails
      split at hfails
      · next hnone => cases hoverlay.symm.trans (hreader.symm.trans hnone)
      · dsimp only at hfails
        split at hfails
        · cases hfails
        · split_ifs at hfails
    · rw [hplain] at hfails
      cases hfails
  rw [refreshReader, ReadEngine.refresh] at h
  split_ifs at h with hold hother hretired
  · exact absurd h (hpublishes rfl)
  · rw [decide_eq_true_iff] at hretired
    exact ⟨Nat.lt_of_le_of_ne (Nat.le_of_not_lt hold) (Ne.symm hother), hretired⟩
  · exact absurd h (hpublishes rfl)
  · exact absurd h (hpublishes rfl)

section

variable (h : Learned s lsn before)
include h

/-- The first of the queue is published. -/
theorem Learned.publish (hlined : Lined s) (hgroup : s.group = flush :: rest)
    (hreader : s.refreshReader flush = .ok reader) (seen : Option Replication) :
    ∃ after, Learned (s.publishCommit seen flush rest reader) after after ∧ lsn ≤ after ∧
      (∀ record ∈ flush.records, record ≤ after) ∧ newest s.reader ≤ newest reader := by
  have hqueue := queue_cons hgroup
  have hhead := mem_head hgroup
  have hsorted := hlined.sorted
  rw [hqueue, pairwise_cons] at hsorted
  have hchained := h.chained
  rw [hqueue] at hchained
  obtain ⟨after, hlink, hrest⟩ := hchained
  obtain ⟨overlay, hoverlay⟩ := Option.isSome_iff_exists.mp h.overlay
  have hgeneration := h.behind flush hhead
  have htree := hlined.ahead flush hhead hgeneration
  have hlearn := refreshReader_learns hoverlay hlink.absorbed hgeneration hreader
  have hlsn := h.le
  -- what was skipped is in the tree of a publication that is not retired
  have hgap : lsn = before ∨ before ≤ flush.root := by
    refine h.skipped.imp id (fun ⟨_, _, _, hqueued⟩ => ?_)
    obtain ⟨hnewer, hroot⟩ := hqueued flush hhead
    rcases refreshReader_moves hreader with ⟨hold, -⟩ | ⟨-, -, -, hlive⟩
    · exact absurd hold (not_lt.mpr hgeneration)
    · exact hroot (le_antisymm (hlined.bound flush hhead).1 (hlive hnewer))
  refine ⟨after, ⟨?_, ?_, ?_, fun other hother => ?_, .inl rfl⟩,
    hlsn.trans hlink.carried.le, hlink.records, ?_⟩
  · rw [hlearn]
    exact learn_isSome
  · rw [hlearn]
    exact h.exact.learn hoverlay hlink.carried hlsn hrest.le htree hlink.root hgap
  · exact hrest.keep rfl le_rfl (.inl rfl)
  · show reader.generation ≤ other.generation
    rw [hlearn, learn]
    split_ifs <;> exact (hsorted.1 other hother).1
  · rw [hlearn]
    exact h.exact.newest_learn hoverlay hlink.carried hlsn htree

/-- The first of the queue is skipped: its generation is retired. -/
theorem Learned.skip (hlined : Lined s) (hgroup : s.group = flush :: rest)
    (hreader : s.refreshReader flush = .error error) :
    ∃ after, Learned (s.publishCommit seen flush rest s.reader) lsn after := by
  have hqueue := queue_cons hgroup
  obtain ⟨hnewer, hretired⟩ := refreshReader_fails (.inl h.overlay) hreader
  have hsorted := hlined.sorted
  rw [hqueue, pairwise_cons] at hsorted
  have hchained := h.chained
  rw [hqueue] at hchained
  obtain ⟨after, hlink, hrest⟩ := hchained
  have hlsn := h.le
  have hlater : ∀ other ∈ rest ++ s.queue, s.reader.generation < other.generation :=
    fun other hother => lt_of_lt_of_le hnewer (hsorted.1 other hother).1
  refine ⟨after, h.overlay, h.exact, hrest.keep rfl le_rfl (.inl rfl),
    fun other hother => le_of_lt (hlater other hother),
    .inr ⟨hlsn.trans hlink.carried.le, hlink.retired hretired,
      lt_trans hnewer hretired, fun other hother => ⟨hlater other hother, fun hnow => ?_⟩⟩⟩
  refine hlink.newer other hother ?_
  rw [hnow]
  exact hretired

theorem Learned.republish (hlined : Lined s) (hmode : s.writeBack = true)
    (hsteady : Steady s .republish) (ht : s.republish = .ok t) :
    Learned t before before ∧ lsn ≤ before ∧ newest s.reader ≤ newest t.reader := by
  have hempty : s.group ++ s.queue = [] := by
    refine eq_nil_iff_forall_not_mem.mpr (fun flush hflush => ?_)
    cases hmode.symm.trans (hsteady flush hflush).1
  obtain ⟨overlay, hoverlay⟩ := Option.isSome_iff_exists.mp h.overlay
  have hall := h.chained
  rw [hempty] at hall
  have hall : before = s.commits.length := hall
  have hlsn := h.le
  obtain ⟨refreshed, hrefresh, ht⟩ := bind_eq_ok.mp ht
  cases refresh_moves hrefresh hlined.generation
  obtain rfl : { s with
      reader := learn s.reader s.generation s.absorbed [] overlay } = t := by
    cases ht
    rw [if_pos hmode, ReadEngine.evictWriteBackThrough, hoverlay, learn]
    split_ifs <;> rfl
  refine ⟨⟨?_, ?_, ?_, ?_, .inl rfl⟩, hlsn, ?_⟩
  · exact learn_isSome
  · refine h.exact.learn hoverlay .nothing hlsn (le_of_eq hall) hlined.tree ?_ ?_
    · rw [hall]
      exact hlined.absorbed
    · exact h.skipped.imp id (fun hskipped => hskipped.2.1)
  · exact h.chained.keep rfl le_rfl (.inl rfl)
  · show ∀ flush ∈ s.group ++ s.queue, _
    rw [hempty]
    exact forall_mem_nil _
  · exact h.exact.newest_learn hoverlay .nothing hlsn hlined.tree

/-- A step never takes the handle back, and only a skip leaves out what it was given. -/
theorem Learned.step (hlined : Lined s) (hmode : s.writeBack = true)
    (hbarriered : Barriered minAcks s) (hsteady : Steady s event) (hstep : Step s event t) :
    ∃ lsn' before', Learned t lsn' before' ∧ lsn ≤ lsn' ∧
      (event ≠ .skip → lsn = before → lsn' = before') := by
  have hstays := fun hlearned : Learned t lsn before =>
    (⟨lsn, before, hlearned, le_rfl, fun _ hlevel => hlevel⟩ : ∃ lsn' before',
      Learned t lsn' before' ∧ lsn ≤ lsn' ∧ (event ≠ .skip → lsn = before → lsn' = before'))
  cases hstep.move with
  | batch => exact hstays (h.batch hlined hmode)
  | document => exact hstays (h.document hlined hmode hsteady)
  | index => exact hstays (h.index hlined hmode)
  | take hidle => exact hstays (h.same rfl rfl rfl rfl (take_queue hbarriered hidle))
  | expire => cases hmode.symm.trans hsteady
  | publish _ hgroup hreader =>
    obtain ⟨after, hlearned, hle, -⟩ := h.publish hlined hgroup hreader _
    exact ⟨after, after, hlearned, hle, fun _ _ => rfl⟩
  | skip _ hgroup hreader =>
    obtain ⟨after, hlearned⟩ := h.skip hlined hgroup hreader
    exact ⟨lsn, after, hlearned, le_rfl, fun hne => absurd rfl hne⟩
  | checkpoint => exact hstays (h.checkpoint hlined)
  | republish ht =>
    obtain ⟨hlearned, hle, -⟩ := h.republish hlined hmode hsteady ht
    exact ⟨before, before, hlearned, hle, fun _ _ => rfl⟩
  | refuse | sync | quorum | pass | register | acknowledge | deregister | begin | replay =>
    exact hstays (h.same rfl rfl rfl rfl rfl)

end

theorem Started.learned (h : Started s) (hmode : s.writeBack = true) :
    Learned s s.commits.length s.commits.length := by
  have hoverlay : s.reader.overlay = some (Overlay.new (2 ^ 64 - 1)) := by
    rw [h.overlay, hmode]
    rfl
  have hnone : ∀ key, buffered s.reader.overlay key = none := by
    rw [hoverlay]
    exact fun key => rfl
  refine ⟨?_, ⟨le_of_eq h.tree, le_rfl, ?_, ?_, fun hentry => ?_, fun hentry => ?_,
    fun _ m hlow hhigh => ?_⟩, ?_, by simp [h.group, h.queue], .inl rfl⟩
  · rw [hoverlay]
    rfl
  · rw [h.evicted]
    exact Nat.zero_le _
  · rw [hoverlay]
    rintro _ ⟨⟩
    exact sorted_nil
  · cases (hnone _).symm.trans hentry
  · cases (hnone _).symm.trans hentry
  · rw [h.tree] at hlow ⊢
    rw [le_antisymm hhigh hlow]
  · rw [h.group, h.queue]
    rfl

end Learned

/-! ## Both modes -/

/-- The handle follows the log. -/
structure Following (minAcks : Nat) (s : Shard) : Prop where
  barriered : Barriered minAcks s
  lined : Lined s
  learned : s.writeBack = true → ∃ lsn before, Learned s lsn before

section Following

variable {minAcks : Nat} {s t : Shard} {event : Event}

/-- The mode stays, and only a publication moves the handle. -/
theorem Step.frame (h : Step s event t) : t.writeBack = s.writeBack ∧
    (event ≠ .publish → event ≠ .republish → t.reader = s.reader) := by
  cases h.move with
  | @batch _ effect => cases effect <;> exact ⟨rfl, fun _ _ => rfl⟩
  | @document _ effects =>
    have hsame := foldl_commit (I := fun t => t.writeBack = s.writeBack ∧ t.reader = s.reader) id
      ⟨rfl, rfl⟩ effects
    rw [Shard.document]
    split_ifs <;> exact ⟨hsame.1, fun _ _ => hsame.2⟩
  | index =>
    rw [Shard.index]
    split_ifs <;> exact ⟨rfl, fun _ _ => rfl⟩
  | publish => exact ⟨rfl, fun hne => absurd rfl hne⟩
  | republish ht =>
    obtain ⟨_, -, ht⟩ := bind_eq_ok.mp ht
    cases ht
    exact ⟨rfl, fun _ hne => absurd rfl hne⟩
  | _ => exact ⟨rfl, fun _ _ => rfl⟩

theorem Following.step (h : Following minAcks s) (hsteady : Steady s event) (hstep : Step s event t) :
    Following minAcks t := by
  refine ⟨h.barriered.step hstep, h.lined.step h.barriered hsteady hstep, fun hmode => ?_⟩
  rw [hstep.frame.1] at hmode
  obtain ⟨lsn, before, hlearned⟩ := h.learned hmode
  obtain ⟨lsn', before', hlearned, -⟩ := hlearned.step h.lined hmode h.barriered hsteady hstep
  exact ⟨lsn', before', hlearned⟩

theorem Started.following (h : Started s) : Following s.replication.minAcks s :=
  ⟨h.barriered, h.lined, fun hmode => ⟨_, _, h.learned hmode⟩⟩

section

variable (h : Following minAcks s)
include h

/-- What is served is the map after the newest commit that the handle knows. -/
theorem Following.serves (key : Bytes) :
    serves s key = stateAt s.commits (newest s.reader) key := by
  cases hmode : s.writeBack with
  | false =>
    have hnone := (h.lined.plain hmode).1
    rw [Shard.serves, newest_of_none hnone, hnone]
    rfl
  | true =>
    obtain ⟨lsn, before, hlearned⟩ := h.learned hmode
    exact hlearned.exact.serves le_rfl hlearned.exact.newest_le key

theorem Following.newest_le : newest s.reader ≤ s.commits.length := by
  cases hmode : s.writeBack with
  | false =>
    rw [newest_of_none (h.lined.plain hmode).1]
    exact h.lined.tree.trans h.lined.absorbed
  | true =>
    obtain ⟨lsn, before, hlearned⟩ := h.learned hmode
    exact hlearned.exact.newest_le.trans hlearned.exact.length

/-- A publication does not take the handle back. -/
theorem Following.newest_publish {reader : ReadEngine Nat} (hgroup : s.group = flush :: rest)
    (hreader : s.refreshReader flush = .ok reader) : newest s.reader ≤ newest reader := by
  have hhead := mem_head hgroup
  cases hmode : s.writeBack with
  | false =>
    obtain ⟨hnone, hplain⟩ := h.lined.plain hmode
    rw [newest_of_none hnone,
      newest_of_none (refreshReader_plain hreader (hplain flush hhead) hnone)]
    rcases refreshReader_moves hreader with ⟨-, -, htree⟩ | ⟨hnewer, -, htree, -⟩
    · exact le_of_eq htree.symm
    · rw [htree]
      exact h.lined.ahead flush hhead hnewer
  | true =>
    obtain ⟨lsn, before, hlearned⟩ := h.learned hmode
    obtain ⟨-, -, -, -, hnewest⟩ := hlearned.publish h.lined hgroup hreader none
    exact hnewest

theorem Following.newest_republish (hsteady : Steady s .republish) (ht : s.republish = .ok t) :
    newest s.reader ≤ newest t.reader := by
  cases hmode : s.writeBack with
  | false =>
    obtain ⟨reader, rfl, -, htree, hoverlay⟩ := republish_moves h.lined.generation ht
    have hnone := (h.lined.plain hmode).1
    rw [newest_of_none hnone, newest_of_none (hoverlay hnone), htree]
    exact h.lined.tree
  | true =>
    obtain ⟨lsn, before, hlearned⟩ := h.learned hmode
    exact (hlearned.republish h.lined hmode hsteady ht).2.2

theorem Following.newest_step (hsteady : Steady s event) (hstep : Step s event t) :
    newest s.reader ≤ newest t.reader := by
  cases hstep.move with
  | publish _ hgroup hreader => exact h.newest_publish hgroup hreader
  | republish ht => exact h.newest_republish hsteady ht
  | _ => exact le_of_eq (congrArg newest (hstep.frame.2 nofun nofun).symm)

end

end Following

/-- **COMMITS**: a handle serves the map after the newest commit it knows, and never goes back. -/
theorem handle_serves_commits {start s t : Shard} {events later : List Event}
    (hstart : Started start) (hrun : Run Step Steady start events s)
    (hlater : Run Step Steady s later t) :
    (∀ key, serves s key = stateAt s.commits (newest s.reader) key) ∧
      newest s.reader ≤ s.commits.length ∧ newest s.reader ≤ newest t.reader := by
  have h : Following start.replication.minAcks s :=
    hrun.invariant (fun h hsteady hstep => h.step hsteady hstep) hstart.following
  have hforward : Following start.replication.minAcks t ∧ newest s.reader ≤ newest t.reader := by
    refine hlater.invariant (I := fun t => Following start.replication.minAcks t ∧
      newest s.reader ≤ newest t.reader) ?_ ⟨h, le_rfl⟩
    rintro t u event ⟨h, hle⟩ hsteady hstep
    exact ⟨h.step hsteady hstep, hle.trans (h.newest_step hsteady hstep)⟩
  exact ⟨h.serves, h.newest_le, hforward.2⟩

/-- A put that is published to a handle with a buffer. -/
def putWithBuffer : List Event :=
  [.batch [.put 0] (some ⟨[([107], some [118])], true, false⟩), .take, .sync 1, .quorum, .pass,
    .publish]

/-- A buffered put is served before and after its checkpoint. -/
theorem handle_serves_commits_one_put :
    ∃ s t, Run Step Steady (fresh true 0) putWithBuffer s ∧
      Run Step Steady s [.checkpoint, .republish] t ∧
      serves s [107] = some [118] ∧ stateAt s.commits (newest s.reader) [107] = some [118] ∧
      newest s.reader ≤ newest t.reader := by
  refine exists_runs_of act id (p := fun s _ => serves s [107] = some [118])
    (by decide +kernel) (fun s t hrun hlater hserves => ?_)
  obtain ⟨hserved, -, hforward⟩ := handle_serves_commits (fresh_started true 0) hrun hlater
  exact ⟨hserves, (hserved [107]).symm.trans hserves, hforward⟩

/-- **GOES BACK**: a checkpoint is republished while two commits of its generation are queued; the
    handle shows both, and then, when the first of them is published, only that one. -/
theorem handle_goes_back :
    ∃ s t, Run Step (fun _ _ => True) (fresh false 0)
        [.checkpoint, .batch [.put 0] (some ⟨[([107], some [1])], true, false⟩),
          .batch [.put 1] (some ⟨[([107], some [2])], true, false⟩), .republish] s ∧
      Run Step (fun _ _ => True) s [.take, .sync 2, .quorum, .pass, .publish] t ∧
      ¬ ∃ p q, p ≤ q ∧ (∀ key, serves s key = stateAt s.commits p key) ∧
        ∀ key, serves t key = stateAt t.commits q key := by
  refine exists_runs_of act id (p := fun s t =>
    [serves s [107], serves t [107]] = [some [2], some [1]] ∧ t.commits = s.commits ∧
      s.commits = [[([107], some [1])], [([107], some [2])]]) (by decide +kernel) ?_
  rintro s t - - ⟨hserved, hsame, hcommits⟩ ⟨p, q, hle, hp, hq⟩
  obtain ⟨hserves, hback, -⟩ := cons.inj hserved |>.imp id cons.inj
  have hp := (hp [107]).symm.trans hserves
  have hq := (hq [107]).symm.trans hback
  rw [hcommits] at hp
  rw [hsame, hcommits] at hq
  -- the first answer takes both commits, the second one is over before the last
  match p, q, hle with
  | 0, _, _ => exact absurd hp (by decide)
  | 1, _, _ => exact absurd hp (by decide)
  | p + 2, q + 2, _ =>
    rw [stateAt, take_of_length_le (by simp)] at hq
    exact absurd hq (by decide)

end Shard

end Vyrn
