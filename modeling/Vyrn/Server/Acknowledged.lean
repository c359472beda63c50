import Vyrn.Server.Publication

/-!
# Acknowledged writes on the read handles

Once a request is answered with success, every later read on the handle should have its effects.
The flush worker answers after it has published (`Plain` without write-back, `Learned` with it),
unless the publication is skipped because its generation was retired; an index change is answered by
the write worker, before anything is published. **`acknowledged_is_served`** is the result over
every run that is `Prompt`; **`index_answered_unserved`** is an index change without write-back.
-/

namespace Vyrn

open List Transition

namespace Shard

variable {minAcks : Nat} {rest : List PendingFlush} {reader : ReadEngine Nat} {event : Event}

/-- No index change, and no checkpoint while a commit waits whose generation the handle has not
    reached. -/
@[reducible] def Timely (s : Shard) : Event → Prop
  | .index .. => False
  | .checkpoint => ∀ flush ∈ s.group ++ s.queue, flush.generation ≤ s.reader.generation
  | _ => True

instance (s : Shard) (event : Event) : Decidable (Timely s event) := by
  apply @Event.casesOn _ event <;> intros <;> infer_instance

/-- The condition on an event, with that of commit order. -/
def Prompt (s : Shard) (event : Event) : Prop := Steady s event ∧ Timely s event

instance (s : Shard) (event : Event) : Decidable (Prompt s event) :=
  inferInstanceAs (Decidable (Steady s event ∧ Timely s event))

/-- What is queued can be published: the handle has its generation, or the engine still has. -/
def Live (s : Shard) : Prop :=
  ∀ flush ∈ s.group ++ s.queue,
    flush.generation ≤ s.reader.generation ∨ flush.generation = s.generation

/-- The LSNs that were answered with success are at or below this one. -/
def Answered (s : Shard) (lsn : Nat) : Prop :=
  ∀ answer ∈ s.answered, ∀ record ∈ answer.records, record ≤ lsn

/-- Without write-back, a root has everything that was logged before it, and what is answered is in
    the tree of the handle. -/
structure Plain (s : Shard) : Prop where
  whole : s.absorbed = s.commits.length
  records : ∀ flush ∈ s.group ++ s.queue, ∀ record ∈ flush.records, record ≤ flush.root
  behind : ∀ flush ∈ s.group ++ s.queue, flush.generation < s.reader.generation →
    flush.root ≤ s.reader.tree
  answered : Answered s s.reader.tree

section Live

variable {s t : Shard} {flush : PendingFlush}

theorem Live.shrink (h : Live s) (hreader : s.reader.generation ≤ t.reader.generation)
    (hgeneration : t.generation = s.generation)
    (hqueue : ∀ flush ∈ t.group ++ t.queue, flush ∈ s.group ++ s.queue) : Live t := by
  intro flush hflush
  rw [hgeneration]
  exact (h flush (hqueue flush hflush)).imp (fun hle => hle.trans hreader) id

theorem Live.push (h : Live s) (hgeneration : flush.generation = s.generation) :
    Live (s.push flush) := by
  exact forall_push.mpr ⟨h, .inr hgeneration⟩

theorem Live.commits (h : Live s) (effects : List Effect) :
    Live (effects.foldl (Shard.commit true) s) :=
  foldl_commit (fun h => h.shrink le_rfl rfl (fun _ hflush => hflush)) h effects

theorem refreshReader_forward (h : s.refreshReader flush = .ok reader) :
    s.reader.generation ≤ reader.generation := by
  rcases refreshReader_moves h with ⟨-, hgeneration, -⟩ | ⟨hnewer, hgeneration, -⟩
  · exact le_of_eq hgeneration.symm
  · rw [hgeneration]
    exact hnewer

/-- A prompt step keeps what is queued fit to be published. -/
theorem Live.step (h : Live s) (hfollowing : Following minAcks s) (hprompt : Prompt s event)
    (hstep : Step s event t) : Live t := by
  cases hstep.move with
  | @batch _ effect =>
    cases effect with
    | none =>
      exact (h.shrink (t := { s with lastPublished := [] }) le_rfl rfl
        (fun _ hflush => hflush)).push rfl
    | some effect =>
      exact (h.shrink (t := s.commit false effect) le_rfl rfl (fun _ hflush => hflush)).push rfl
  | @document _ effects =>
    rw [Shard.document]
    split_ifs
    · exact (h.commits effects).push rfl
    · exact h.commits effects
  | index => exact hprompt.2.elim
  | take hidle =>
    refine h.shrink le_rfl rfl (fun flush hflush => ?_)
    rw [take_queue hfollowing.barriered hidle] at hflush
    exact hflush
  | expire => exact h.shrink le_rfl rfl (fun _ => mem_append_right _)
  | publish _ hgroup hreader =>
    exact h.shrink (refreshReader_forward hreader) rfl (fun _ => mem_rest hgroup)
  | skip _ hgroup => exact h.shrink le_rfl rfl (fun _ => mem_rest hgroup)
  | checkpoint => exact fun flush hflush => .inl (hprompt.2 flush hflush)
  | republish ht =>
    obtain ⟨reader, rfl, hgeneration, -⟩ := republish_moves hfollowing.lined.generation ht
    refine h.shrink ?_ rfl (fun _ hflush => hflush)
    show s.reader.generation ≤ reader.generation
    rw [hgeneration]
    exact hfollowing.lined.generation
  | refuse | sync | quorum | pass | register | acknowledge | deregister | begin | replay =>
    exact h.shrink le_rfl rfl (fun _ hflush => hflush)

/-- Nothing is skipped. -/
theorem Live.publishes {error : Error} (h : Live s) (hfollowing : Following minAcks s)
    (hgroup : s.group = flush :: rest) : s.refreshReader flush ≠ .error error := by
  intro hfails
  have hhead := mem_head hgroup
  have htaught : s.reader.overlay.isSome ∨ flush.writeBack = ⟨[], none⟩ := by
    cases hmode : s.writeBack with
    | false => exact .inr ((hfollowing.lined.plain hmode).2 flush hhead)
    | true =>
      obtain ⟨lsn, before, hlearned⟩ := hfollowing.learned hmode
      exact .inl hlearned.overlay
  obtain ⟨hbehind, hretired⟩ := refreshReader_fails htaught hfails
  rcases h flush hhead with hle | hsame
  · exact absurd hbehind (not_lt.mpr hle)
  · exact absurd hretired (not_lt.mpr (le_of_eq hsame.symm))

end Live

section Plain

variable {s t : Shard}

section

variable (h : Plain s) {flush : PendingFlush}
include h

theorem Plain.shrink (hreader : t.reader = s.reader) (hwhole : t.absorbed = t.commits.length)
    (hanswered : t.answered = s.answered)
    (hqueue : ∀ flush ∈ t.group ++ t.queue, flush ∈ s.group ++ s.queue) : Plain t := by
  refine ⟨hwhole, fun flush hflush => h.records flush (hqueue flush hflush), ?_, ?_⟩
  · rw [hreader]
    exact fun flush hflush => h.behind flush (hqueue flush hflush)
  · rw [Answered, hanswered, hreader]
    exact h.answered

theorem Plain.push (hlined : Lined s) (hgeneration : flush.generation = s.generation)
    (hroot : flush.root = s.absorbed)
    (hrecords : ∀ record ∈ flush.records, record ≤ s.commits.length) : Plain (s.push flush) := by
  refine ⟨h.whole, forall_push.mpr ⟨h.records, ?_⟩, forall_push.mpr ⟨h.behind, fun hbehind => ?_⟩,
    h.answered⟩
  · rw [hroot, h.whole]
    exact hrecords
  · rw [hgeneration] at hbehind
    exact absurd hbehind (not_lt.mpr hlined.generation)

theorem Plain.commit (hmode : s.writeBack = false) (immediate : Bool) (effect : Effect) :
    Plain (s.commit immediate effect) := by
  refine h.shrink rfl ?_ rfl (fun _ hflush => hflush)
  rw [commit_commits, length_append]
  show (if s.writeBack && !effect.absorb then s.absorbed else s.commits.length + 1) = _
  rw [hmode]
  rfl

/-- What a publication answers is in the tree that the handle then has. -/
theorem Plain.publish {seen : Option Replication} (hlined : Lined s)
    (hgroup : s.group = flush :: rest) (hreader : s.refreshReader flush = .ok reader) :
    Plain (s.publishCommit seen flush rest reader) := by
  have hmem := fun {other : PendingFlush} => @mem_rest s flush other rest hgroup
  have hhead := mem_head hgroup
  have hsorted := hlined.sorted
  rw [queue_cons hgroup, pairwise_cons] at hsorted
  -- the tree that is served has the root of the publication, and everything it had
  obtain ⟨hroot, htree⟩ : flush.root ≤ reader.tree ∧ s.reader.tree ≤ reader.tree := by
    rcases refreshReader_moves hreader with ⟨hbehind, -, htree⟩ | ⟨hnewer, -, htree, -⟩
    · rw [htree]
      exact ⟨h.behind flush hhead hbehind, le_rfl⟩
    · rw [htree]
      exact ⟨le_rfl, hlined.ahead flush hhead hnewer⟩
  refine ⟨h.whole, fun other hother => h.records other (hmem hother),
    fun other hother hbehind => ?_, fun answer hanswer record hrecord => ?_⟩
  · have hbehind : other.generation < reader.generation := hbehind
    show other.root ≤ reader.tree
    rcases refreshReader_moves hreader with ⟨-, hgeneration, -⟩ | ⟨-, hgeneration, -⟩
    · rw [hgeneration] at hbehind
      exact (h.behind other (hmem hother) hbehind).trans htree
    · rw [hgeneration] at hbehind
      exact absurd hbehind (not_lt.mpr (hsorted.1 other hother).1)
  · show record ≤ reader.tree
    rcases mem_append.mp hanswer with hold | hnew
    · exact (h.answered answer hold record hrecord).trans htree
    · obtain ⟨request, -, rfl⟩ := mem_map.mp hnew
      exact (h.records flush hhead record hrecord).trans hroot

theorem Plain.republish (hlined : Lined s) (ht : s.republish = .ok t) : Plain t := by
  obtain ⟨reader, rfl, -, htree, -⟩ := republish_moves hlined.generation ht
  refine ⟨h.whole, h.records, fun flush hflush _ => ?_, fun answer hanswer record hrecord => ?_⟩
  · show flush.root ≤ reader.tree
    rw [htree]
    exact (hlined.bound flush hflush).2
  · show record ≤ reader.tree
    rw [htree]
    exact (h.answered answer hanswer record hrecord).trans hlined.tree

theorem Plain.document {request : Request} {effects : List Effect} {ok : Bool} (hlined : Lined s)
    (hmode : s.writeBack = false) : Plain (s.document request effects ok) := by
  have hcommitted := (foldl_commit (I := fun s => Plain s ∧ s.writeBack = false)
    (fun h => ⟨h.1.commit h.2 true _, h.2⟩) ⟨h, hmode⟩ effects).1
  rw [Shard.document]
  split_ifs
  · refine hcommitted.push (hlined.commits effects) rfl rfl (fun record hrecord => ?_)
    obtain ⟨-, _⟩ := mem_range'_1.mp hrecord
    rw [foldl_commit_commits, length_append, length_map]
    omega
  · exact hcommitted

/-- Without write-back, a prompt step keeps what is answered in the handle's tree. -/
theorem Plain.step (hlive : Live s) (hfollowing : Following minAcks s) (hmode : s.writeBack = false)
    (hprompt : Prompt s event) (hstep : Step s event t) : Plain t := by
  have hlined := hfollowing.lined
  cases hstep.move with
  | @batch _ effect =>
    cases effect with
    | none =>
      refine (h.shrink (t := { s with lastPublished := [] }) rfl h.whole rfl
        (fun _ hflush => hflush)).push ?_ rfl rfl nofun
      exact hlined.shrink rfl rfl le_rfl le_rfl hlined.absorbed (Sublist.refl _)
    | some effect =>
      refine (h.commit hmode false effect).push (hlined.commit false effect) rfl rfl
        (fun record hrecord => ?_)
      exact le_of_eq (mem_singleton.mp hrecord)
  | document => exact h.document hlined hmode
  | index => exact hprompt.2.elim
  | take hidle =>
    refine h.shrink rfl h.whole rfl (fun flush hflush => ?_)
    rw [take_queue hfollowing.barriered hidle] at hflush
    exact hflush
  | expire => exact h.shrink rfl h.whole rfl (fun _ => mem_append_right _)
  | publish _ hgroup hreader => exact h.publish hlined hgroup hreader
  | skip _ hgroup hfails => exact absurd hfails (hlive.publishes hfollowing hgroup)
  | checkpoint => exact h.shrink rfl rfl rfl (fun _ hflush => hflush)
  | republish ht => exact h.republish hlined ht
  | refuse | sync | quorum | pass | register | acknowledge | deregister | begin | replay =>
    exact h.shrink rfl h.whole rfl (fun _ hflush => hflush)

end

end Plain

/-! ## Both modes -/

/-- What is answered is served, and stays so. -/
structure Kept (minAcks : Nat) (s : Shard) : Prop where
  following : Following minAcks s
  live : Live s
  plain : s.writeBack = false → Plain s
  learned : s.writeBack = true → ∃ lsn, Learned s lsn lsn ∧ Answered s lsn

section Kept

variable {minAcks : Nat} {s t : Shard} {event : Event}

/-- Only the flush worker and index changes answer with success. -/
theorem Step.answered (hstep : Step s event t) :
    t.answered = s.answered ∨ (∃ request effect, event = .index request effect) ∨
      ∃ seen flush rest reader, s.group = flush :: rest ∧
        t = s.publishCommit seen flush rest reader ∧
        (event = .skip ∨ s.refreshReader flush = .ok reader) := by
  cases hstep.move with
  | @batch _ effect => cases effect <;> exact .inl rfl
  | @document _ effects =>
    rw [Shard.document]
    split_ifs <;> 
      exact .inl (foldl_commit (I := fun t => t.answered = s.answered) id rfl effects)
  | @index request effect => exact .inr (.inl ⟨request, effect, rfl⟩)
  | publish _ hgroup hreader => exact .inr (.inr ⟨_, _, _, _, hgroup, rfl, .inr hreader⟩)
  | skip _ hgroup => exact .inr (.inr ⟨_, _, _, _, hgroup, rfl, .inl rfl⟩)
  | republish ht =>
    obtain ⟨_, -, ht⟩ := bind_eq_ok.mp ht
    cases ht
    exact .inl rfl
  | refuse | take | sync | quorum | pass | expire | register | acknowledge | deregister
  | checkpoint | begin | replay => exact .inl rfl

theorem Kept.not_skip (h : Kept minAcks s) (hstep : Step s event t) : event ≠ .skip := by
  rintro rfl
  cases hstep.move with
  | skip _ hgroup hfails => exact h.live.publishes h.following hgroup hfails

theorem Kept.learned_step (h : Kept minAcks s) (hmode : s.writeBack = true)
    (hprompt : Prompt s event) (hstep : Step s event t) :
    ∃ lsn, Learned t lsn lsn ∧ Answered t lsn := by
  obtain ⟨lsn, hlearned, hanswered⟩ := h.learned hmode
  have hlined := h.following.lined
  rcases hstep.answered with hsame | ⟨request, effect, rfl⟩ |
    ⟨seen, flush, rest, reader, hgroup, rfl, hskip | hreader⟩
  · obtain ⟨lsn', before', hlearned', hle, hlevel⟩ :=
      hlearned.step hlined hmode h.following.barriered hprompt.1 hstep
    cases hlevel (h.not_skip hstep) rfl
    refine ⟨lsn', hlearned', fun answer hanswer record hrecord => ?_⟩
    rw [hsame] at hanswer
    exact (hanswered answer hanswer record hrecord).trans hle
  · exact hprompt.2.elim
  · exact absurd hskip (h.not_skip hstep)
  · obtain ⟨after, hlearned', hle, hrecords, -⟩ := hlearned.publish hlined hgroup hreader seen
    refine ⟨after, hlearned', fun answer hanswer record hrecord => ?_⟩
    rcases mem_append.mp hanswer with hold | hnew
    · exact (hanswered answer hold record hrecord).trans hle
    · obtain ⟨request, -, rfl⟩ := mem_map.mp hnew
      exact hrecords record hrecord

theorem Kept.step (h : Kept minAcks s) (hprompt : Prompt s event) (hstep : Step s event t) :
    Kept minAcks t := by
  refine ⟨h.following.step hprompt.1 hstep, h.live.step h.following hprompt hstep, fun hmode => ?_,
    fun hmode => ?_⟩
  · rw [hstep.frame.1] at hmode
    exact (h.plain hmode).step h.live h.following hmode hprompt hstep
  · rw [hstep.frame.1] at hmode
    exact h.learned_step hmode hprompt hstep

theorem Started.kept (h : Started s) : Kept s.replication.minAcks s := by
  refine ⟨h.following, by simp [Live, h.group, h.queue], fun _ => ?_, fun hmode => ?_⟩
  · exact ⟨h.absorbed, by simp [h.group, h.queue], by simp [h.group, h.queue],
      by simp [Answered, h.answered]⟩
  · exact ⟨_, h.learned hmode, by simp [Answered, h.answered]⟩

/-- The handle serves the map after all that was answered. -/
theorem Kept.serves (h : Kept minAcks s) : ∃ lsn, Answered s lsn ∧ lsn ≤ s.commits.length ∧
    ∀ key, serves s key = stateAt s.commits lsn key := by
  cases hmode : s.writeBack with
  | false =>
    have hnone := (h.following.lined.plain hmode).1
    have hserves := h.following.serves
    rw [newest_of_none hnone] at hserves
    exact ⟨_, (h.plain hmode).answered, Nat.le_trans h.following.lined.tree
      h.following.lined.absorbed, hserves⟩
  | true =>
    obtain ⟨lsn, hlearned, hanswered⟩ := h.learned hmode
    exact ⟨lsn, hanswered, hlearned.exact.length,
      hlearned.exact.serves hlearned.exact.newest_le le_rfl⟩

/-- An answer is not taken back. -/
theorem Prompt.answered {answer : Answer} (hprompt : Prompt s event) (hstep : Step s event t)
    (h : answer ∈ s.answered) : answer ∈ t.answered := by
  rcases hstep.answered with hsame | ⟨_, _, rfl⟩ | ⟨_, _, _, _, -, rfl, -⟩
  · rw [hsame]
    exact h
  · exact hprompt.2.elim
  · exact mem_append_left _ h

end Kept

/-- **ACKNOWLEDGED**: once a request was answered with success, the handle serves the map after a
    commit at or behind all that the request logged. -/
theorem acknowledged_is_served {start s t : Shard} {events later : List Event}
    (hstart : Started start) (hrun : Run Step Prompt start events s) {answer : Answer}
    (hanswer : answer ∈ s.answered) (hlater : Run Step Prompt s later t) :
    ∃ lsn, (∀ record ∈ answer.records, record ≤ lsn) ∧ lsn ≤ t.commits.length ∧
      ∀ key, serves t key = stateAt t.commits lsn key := by
  have h : Kept start.replication.minAcks s :=
    hrun.invariant (fun h hprompt hstep => h.step hprompt hstep) hstart.kept
  obtain ⟨h, hkept⟩ : Kept start.replication.minAcks t ∧ answer ∈ t.answered := by
    refine hlater.invariant (I := fun t => Kept start.replication.minAcks t ∧
      answer ∈ t.answered) ?_ ⟨h, hanswer⟩
    rintro t u event ⟨h, hkept⟩ hprompt hstep
    exact ⟨h.step hprompt hstep, hprompt.answered hstep hkept⟩
  obtain ⟨lsn, hanswered, hserves⟩ := h.serves
  exact ⟨lsn, hanswered answer hkept, hserves⟩

/-- A put with write-back, and the checkpoint behind it. -/
theorem acknowledged_is_served_one_put :
    ∃ s t, Run Step Prompt (fresh true 0) putWithBuffer s ∧
      Run Step Prompt s [.checkpoint, .republish] t ∧
      ∃ answer ∈ s.answered, answer.records = [1] ∧
        ∃ lsn, 1 ≤ lsn ∧ ∀ key, serves t key = stateAt t.commits lsn key := by
  refine exists_runs_of act id
    (p := fun s _ => ∃ answer ∈ s.answered, answer.records = [1]) (by decide +kernel) ?_
  rintro s t hrun hlater ⟨answer, hanswer, hrecords⟩
  obtain ⟨lsn, hbelow, -, hserves⟩ :=
    acknowledged_is_served (fresh_started true 0) hrun hanswer hlater
  rw [hrecords] at hbelow
  exact ⟨answer, hanswer, hrecords, lsn, hbelow 1 (mem_singleton_self 1), hserves⟩

/-- **UNSERVED**: an index is created with success, and the handle does not have it. -/
theorem index_answered_unserved :
    ∃ s, Run Step (fun _ _ => True) (fresh false 0)
        [.index (.createIndex 0) ⟨[([107], some [1])], false, false⟩] s ∧
      s.answered = [⟨.createIndex 0, [1], 1, none⟩] ∧
      ¬ ∃ lsn, 1 ≤ lsn ∧ ∀ key, serves s key = stateAt s.commits lsn key := by
  refine exists_run_of act id
    (p := fun s => s.answered = [⟨.createIndex 0, [1], 1, none⟩] ∧ serves s [107] = none ∧
      s.commits = [[([107], some [1])]]) (by decide +kernel) ?_
  rintro s - ⟨hanswered, hserves, hcommits⟩
  refine ⟨hanswered, ?_⟩
  rintro ⟨lsn, hlow, hstate⟩
  have hnone := (hstate [107]).symm.trans hserves
  rw [hcommits, stateAt, take_of_length_le (by simpa using hlow)] at hnone
  exact absurd hnone (by decide)

end Shard

end Vyrn
