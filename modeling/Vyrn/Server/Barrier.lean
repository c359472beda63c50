import Vyrn.Server.Pipeline

/-!
# Answers behind the barrier

**`answers_after_barrier`**: whatever the workers group together, an answer with success is sent
after every record of its request was synced, and for a key/value operation or a transaction after
`minAcks` streams acknowledged an LSN at or above it. The other two routes take no quorum:
**`document_without_quorum`** is a document write that is answered without a replica.
-/

namespace Vyrn

open List Transition

namespace Replication

theorem ackedAtLeast_anti (self : Replication) {lsn below : Nat} (h : below ≤ lsn) :
    self.ackedAtLeast lsn ≤ self.ackedAtLeast below := by
  refine countP_mono_left (fun entry _ hreached => ?_)
  rw [decide_eq_true_iff] at hreached ⊢
  exact h.trans hreached

end Replication

/-- The records of an answered request were synced, and acknowledged if it was batched. -/
def Answer.Covered (minAcks : Nat) (answer : Answer) : Prop :=
  ∀ lsn ∈ answer.records, lsn ≤ answer.synced ∧ (answer.request.route = .batch →
    ∃ registry ∈ answer.seen, minAcks ≤ registry.ackedAtLeast lsn)

namespace Shard

/-! ## Every answer is behind a barrier -/

/-- What a queued commit owes: batched requests are answered for the record they wait for, and
    every other record is synced already. -/
structure Owes (s : Shard) (flush : PendingFlush) : Prop where
  batched : ∀ request ∈ flush.requests, request.route = .batch
  others : ∀ request ∈ flush.answers, request.route ≠ .batch
  waits : ∀ lsn ∈ flush.records, lsn ∈ flush.lsn ∨ (flush.requests = [] ∧ lsn ≤ s.synced)
  logged : ∀ lsn ∈ flush.lsn, 0 < lsn ∧ lsn ≤ s.commits.length

/-- What the flush worker has waited for. -/
def Waited (minAcks : Nat) (s : Shard) : Stage → Prop
  | .idle => s.group = []
  | .barrier lsn flushed seen =>
    (∀ flush ∈ s.group, ∀ own ∈ flush.lsn, own ≤ lsn) ∧ 0 < lsn ∧ lsn ≤ s.commits.length ∧
      (flushed = true → lsn ≤ s.synced) ∧ ∀ registry ∈ seen, minAcks ≤ registry.ackedAtLeast lsn
  | .publishing seen =>
    ∀ flush ∈ s.group, ∀ own ∈ flush.lsn, own ≤ s.synced ∧
      ∃ registry ∈ seen, minAcks ≤ registry.ackedAtLeast own

structure Barriered (minAcks : Nat) (s : Shard) : Prop where
  configured : s.replication.minAcks = minAcks
  synced : s.synced ≤ s.commits.length
  owes : ∀ flush ∈ s.group ++ s.queue, Owes s flush
  waited : Waited minAcks s s.stage
  reached : ∀ q ∈ s.reached, minAcks ≤ q.2.ackedAtLeast q.1
  answered : ∀ answer ∈ s.answered, answer.Covered minAcks

section Steps

variable {minAcks : Nat} {s t : Shard} {flush : PendingFlush}

theorem Owes.mono (h : Owes s flush) (hsynced : s.synced ≤ t.synced)
    (hcommits : s.commits.length ≤ t.commits.length) : Owes t flush := by
  refine ⟨h.batched, h.others, fun lsn hlsn => ?_, fun lsn hlsn => ?_⟩
  · exact (h.waits lsn hlsn).imp id (fun hdone => ⟨hdone.1, hdone.2.trans hsynced⟩)
  · exact ⟨(h.logged lsn hlsn).1, (h.logged lsn hlsn).2.trans hcommits⟩

theorem Waited.mono {stage : Stage} (h : Waited minAcks s stage) (hgroup : t.group = s.group)
    (hsynced : s.synced ≤ t.synced) (hcommits : s.commits.length ≤ t.commits.length) :
    Waited minAcks t stage := by
  cases stage with
  | idle => exact hgroup.trans h
  | barrier =>
    obtain ⟨hbelow, hpos, hlogged, hflushed, hseen⟩ := h
    rw [Waited, hgroup]
    exact ⟨hbelow, hpos, hlogged.trans hcommits, fun hdone => (hflushed hdone).trans hsynced, hseen⟩
  | publishing =>
    rw [Waited, hgroup]
    intro flush hflush own hown
    obtain ⟨hdone, hquorum⟩ := h flush hflush own hown
    exact ⟨hdone.trans hsynced, hquorum⟩

section

variable (h : Barriered minAcks s) {request : Request}
include h

/-- What is logged and synced grows. -/
theorem Barriered.grow (hconfigured : t.replication.minAcks = s.replication.minAcks)
    (hsyncs : s.synced ≤ t.synced) (hlogs : s.commits.length ≤ t.commits.length)
    (hsynced : t.synced ≤ t.commits.length) (hgroup : t.group = s.group)
    (hstage : t.stage = s.stage) (hqueue : t.queue = s.queue) (hreached : t.reached = s.reached)
    (hanswered : t.answered = s.answered) : Barriered minAcks t := by
  refine ⟨hconfigured.trans h.configured, hsynced, ?_, ?_, ?_, ?_⟩
  · rw [hgroup, hqueue]
    exact fun flush hflush => (h.owes flush hflush).mono hsyncs hlogs
  · rw [hstage]
    exact h.waited.mono hgroup hsyncs hlogs
  · rw [hreached]
    exact h.reached
  · rw [hanswered]
    exact h.answered

theorem Barriered.commit (immediate : Bool) (effect : Effect) :
    Barriered minAcks (s.commit immediate effect) := by
  have hbefore := h.synced
  have hlength : (s.commits ++ [effect.mutations]).length = s.commits.length + 1 :=
    length_append
  refine h.grow rfl ?_ ?_ ?_ rfl rfl rfl rfl rfl
  · show s.synced ≤ if immediate then s.commits.length + 1 else s.synced
    split_ifs <;> omega
  · rw [commit_commits, hlength]
    exact Nat.le_succ _
  · show (if immediate then s.commits.length + 1 else s.synced) ≤
      (s.commits ++ [effect.mutations]).length
    rw [hlength]
    split_ifs <;> omega

theorem Barriered.commits (effects : List Effect) :
    Barriered minAcks (effects.foldl (Shard.commit true) s) :=
  foldl_commit (fun h => h.commit true _) h effects

theorem Barriered.push (howes : Owes s flush) : Barriered minAcks (s.push flush) := by
  exact ⟨h.configured, h.synced,
    forall_push.mpr ⟨fun other hother => { h.owes other hother with }, { howes with }⟩,
    h.waited.mono rfl le_rfl le_rfl, h.reached, h.answered⟩

theorem Barriered.batch {requests : List Request} {effect : Option Effect}
    (hroute : ∀ request ∈ requests, request.route = .batch) :
    Barriered minAcks (s.batch requests effect) := by
  cases effect with
  | none =>
    refine (h.grow (t := { s with lastPublished := [] }) rfl le_rfl le_rfl
      h.synced rfl rfl rfl rfl rfl).push ?_
    exact ⟨hroute, nofun, nofun, nofun⟩
  | some effect =>
    refine (h.commit false effect).push ⟨hroute, nofun, fun lsn hlsn => ?_, fun lsn hlsn => ?_⟩
    · rw [mem_singleton.mp hlsn]
      exact .inl rfl
    · cases hlsn
      refine ⟨?_, le_rfl⟩
      rw [commit_commits, length_append]
      exact Nat.succ_pos _

theorem Barriered.document {effects : List Effect} {ok : Bool}
    (hroute : request.route = .document) : Barriered minAcks (s.document request effects ok) := by
  rw [Shard.document]
  split_ifs
  · refine (h.commits effects).push ⟨nofun, fun other hother => ?_, fun lsn hlsn => ?_, nofun⟩
    · rw [mem_singleton.mp hother, hroute]
      exact nofun
    · -- there is a record, so there was a commit, and its own sync covers it
      obtain ⟨-, _⟩ := mem_range'_1.mp hlsn
      have hsome : effects ≠ [] := by
        rintro rfl
        cases hlsn
      refine .inr ⟨rfl, ?_⟩
      rw [foldl_commit_synced (.inl hsome), foldl_commit_commits, length_append, length_map]
      omega
  · exact h.commits effects

theorem Barriered.index {effect : Effect} (hroute : request.route = .index) :
    Barriered minAcks (s.index request effect) := by
  have hsynced : (s.commit true effect).commits.length ≤ (s.commit true effect).synced := by
    rw [commit_commits, length_append]
    exact le_rfl
  have hcommitted := h.commit true effect
  have hqueued : Barriered minAcks (s.indexed effect) := by
    rw [indexed]
    split_ifs
    · exact hcommitted
    · refine hcommitted.push ⟨nofun, nofun, fun lsn hlsn => ?_, nofun⟩
      rw [mem_singleton.mp hlsn]
      exact .inr ⟨rfl, hsynced⟩
  refine ⟨hqueued.configured, hqueued.synced,
    fun flush hflush => { hqueued.owes flush hflush with }, hqueued.waited.mono rfl le_rfl le_rfl,
    hqueued.reached, forall_mem_append.mpr ⟨hqueued.answered, forall_mem_singleton.mpr ?_⟩⟩
  intro lsn hlsn
  rw [mem_singleton.mp hlsn]
  exact ⟨hsynced, fun hbatch => nomatch hroute.symm.trans hbatch⟩

theorem take_queue (hidle : s.stage = .idle) :
    s.take.group ++ s.take.queue = s.group ++ s.queue := by
  have hwaited := h.waited
  rw [hidle] at hwaited
  rw [show s.group = [] from hwaited]
  exact append_nil _

theorem Barriered.take (hidle : s.stage = .idle) :
    Barriered minAcks s.take := by
  refine ⟨h.configured, h.synced, ?_, ?_, h.reached, h.answered⟩
  · rw [take_queue h hidle]
    exact fun flush hflush => { h.owes flush hflush with }
  · obtain ⟨lsn, hmax, hstage⟩ | ⟨hnone, hstage⟩ := s.take_stage
    · obtain ⟨hmem, hbelow⟩ := max?_eq_some_iff.mp hmax
      obtain ⟨highest, hhighest, hown⟩ := mem_filterMap.mp hmem
      obtain ⟨hpos, hlogged⟩ := (h.owes highest (mem_append_right _ hhighest)).logged lsn hown
      rw [hstage]
      refine ⟨fun flush hflush own hlsn => ?_, hpos, hlogged, by rintro ⟨⟩, by rintro _ ⟨⟩⟩
      exact hbelow own (mem_filterMap.mpr ⟨flush, hflush, hlsn⟩)
    · -- nothing in the group waits for a barrier
      rw [hstage]
      intro flush hflush own hlsn
      cases (hnone flush hflush).symm.trans hlsn

theorem Barriered.publish {seen : Option Replication} {rest : List PendingFlush}
    (hstage : s.stage = .publishing seen) (hgroup : s.group = flush :: rest)
    (reader : ReadEngine Nat) : Barriered minAcks (s.publishCommit seen flush rest reader) := by
  have hwaited := h.waited
  rw [hstage] at hwaited
  have howes : Owes s flush := h.owes flush (mem_head hgroup)
  refine ⟨h.configured, h.synced, fun other hother => { h.owes other (mem_rest hgroup hother) with },
    ?_, h.reached, ?_⟩
  · show Waited minAcks _ (if rest.isEmpty then .idle else .publishing seen)
    split_ifs with hlast
    · exact isEmpty_iff.mp hlast
    · intro other hother
      exact hwaited other (by rw [hgroup]; exact mem_cons_of_mem _ hother)
  · intro answer hanswer
    rcases mem_append.mp hanswer with hanswer | hanswer
    · exact h.answered answer hanswer
    · obtain ⟨request, hrequest, rfl⟩ := mem_map.mp hanswer
      intro lsn hlsn
      have hown : lsn ∈ flush.lsn → lsn ≤ s.synced ∧
          ∃ registry ∈ seen, minAcks ≤ registry.ackedAtLeast lsn :=
        hwaited flush (by rw [hgroup]; exact mem_cons_self) lsn
      rcases howes.waits lsn hlsn with hwaits | ⟨hnone, hdone⟩
      · exact ⟨(hown hwaits).1, fun _ => (hown hwaits).2⟩
      · refine ⟨hdone, fun hbatch => ?_⟩
        rw [hnone, nil_append] at hrequest
        exact absurd hbatch (howes.others request hrequest)

/-- No step answers before the barrier. -/
theorem Barriered.step {event : Event} (hstep : Step s event t) :
    Barriered minAcks t := by
  have hwaited := h.waited
  cases hstep.move with
  | batch hroute => exact h.batch hroute
  | document hroute => exact h.document hroute
  | index hroute => exact h.index hroute
  | take hidle => exact h.take hidle
  | @sync _ covered _ hstage hlsn hcovered =>
    rw [hstage] at hwaited
    obtain ⟨hbelow, hpos, hlogged, -, hseen⟩ := hwaited
    refine ⟨h.configured, Nat.max_le.mpr ⟨h.synced, hcovered⟩, ?_, ?_, h.reached, h.answered⟩
    · exact fun flush hflush =>
        (h.owes flush hflush).mono (le_max_left _ _) le_rfl
    · exact ⟨hbelow, hpos, hlogged, fun _ => hlsn.trans (le_max_right s.synced covered), hseen⟩
  | @quorum _ _ hstage hquorum =>
    rw [hstage] at hwaited
    obtain ⟨hbelow, hpos, hlogged, hflushed, -⟩ := hwaited
    have hacked := acked_of_awaitQuorum hpos hquorum
    rw [h.configured] at hacked
    refine ⟨h.configured, h.synced, fun flush hflush => { h.owes flush hflush with }, ?_,
      forall_mem_append.mpr ⟨h.reached, forall_mem_singleton.mpr hacked⟩, h.answered⟩
    refine ⟨hbelow, hpos, hlogged, hflushed, fun registry hregistry => ?_⟩
    cases hregistry
    exact hacked
  | @pass _ seen hstage =>
    rw [hstage] at hwaited
    obtain ⟨hbelow, -, -, hflushed, hseen⟩ := hwaited
    refine ⟨h.configured, h.synced, fun flush hflush => { h.owes flush hflush with },
      fun flush hflush own hown => ?_, h.reached, h.answered⟩
    have hle := hbelow flush hflush own hown
    exact ⟨hle.trans (hflushed rfl), seen, rfl, (hseen seen rfl).trans (seen.ackedAtLeast_anti hle)⟩
  | expire =>
    exact ⟨h.configured, h.synced,
      fun flush hflush => { h.owes flush (mem_append_right _ hflush) with }, rfl, h.reached,
      h.answered⟩
  | publish hstage hgroup | skip hstage hgroup => exact h.publish hstage hgroup _
  | checkpoint =>
    exact h.grow rfl h.synced le_rfl le_rfl rfl rfl rfl rfl rfl
  | republish hrepublish =>
    obtain ⟨reader, -, hreader⟩ := bind_eq_ok.mp hrepublish
    cases hreader
    exact h.grow rfl le_rfl le_rfl h.synced rfl rfl rfl rfl rfl
  | register | acknowledge | deregister | refuse | begin | replay =>
    exact h.grow rfl le_rfl le_rfl h.synced rfl rfl rfl rfl rfl

end

theorem Started.barriered (h : Started s) : Barriered s.replication.minAcks s := by
  refine ⟨rfl, le_of_eq h.synced, ?_, ?_, by simp [h.reached], by simp [h.answered]⟩
  · simp [h.group, h.queue]
  · rw [h.stage]
    exact h.group

end Steps

/-- **BARRIER**: an answer with success is sent after the records of its request were synced, and,
    for a key/value operation or a transaction, after `minAcks` streams acknowledged them. -/
theorem answers_after_barrier {start s : Shard} {events : List Event} (hstart : Started start)
    (hrun : Run Step (fun _ _ => True) start events s) {answer : Answer}
    (hanswer : answer ∈ s.answered) :
    ∀ lsn ∈ answer.records, lsn ≤ answer.synced ∧ (answer.request.route = .batch →
      ∃ registry ∈ answer.seen, start.replication.minAcks ≤ registry.ackedAtLeast lsn) := by
  have h : Barriered start.replication.minAcks s :=
    hrun.invariant (fun h _ hstep => h.step hstep) hstart.barriered
  exact h.answered answer hanswer

/-- A put that waits for one replica. -/
def putWithReplica : List Event :=
  [.register, .batch [.put 0] (some ⟨[([107], some [118])], true, false⟩), .take, .sync 1,
    .acknowledge 1 1, .quorum, .pass, .publish]

/-- One put, one replica: answered when both have it. -/
theorem answers_after_barrier_one_put :
    ∃ s, Run Step (fun _ _ => True) (fresh false 1) putWithReplica s ∧
      ∃ answer ∈ s.answered, answer.request = .put 0 ∧ answer.records = [1] ∧ 1 ≤ answer.synced ∧
        ∃ registry ∈ answer.seen, 1 ≤ registry.ackedAtLeast 1 := by
  refine exists_run_of act id
    (p := fun s => ∃ answer ∈ s.answered, answer.request = .put 0 ∧ answer.records = [1])
    (by decide +kernel) ?_
  rintro s hrun ⟨answer, hanswer, hrequest, hrecords⟩
  have hcovered := answers_after_barrier (fresh_started false 1) hrun hanswer 1
    (by rw [hrecords]; exact mem_singleton_self 1)
  exact ⟨answer, hanswer, hrequest, hrecords, hcovered.1, hcovered.2 (by rw [hrequest]; rfl)⟩

/-- **NO QUORUM**: with one acknowledgement required and no replica connected, a collection is
    created and an index dropped with success. -/
theorem document_without_quorum :
    ∃ s, Run Step (fun _ _ => True) (fresh false 1)
        [.document (.createCollection 0) [⟨[([107], some [1])], false, false⟩] true, .take,
          .publish, .index (.dropIndex 1) ⟨[([107], none)], false, false⟩] s ∧
      s.answered = [⟨.createCollection 0, [1], 1, none⟩, ⟨.dropIndex 1, [2], 2, none⟩] ∧
      s.replication.minAcks = 1 ∧ s.replication.ackedAtLeast 1 = 0 :=
  exists_run act id (by decide +kernel)

end Shard

end Vyrn
