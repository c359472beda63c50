import Vyrn.Cluster.Fencing
import Vyrn.Cluster.Logs

/-!
# Leader completeness

An answered write is durable on more members than can be missing from a majority of votes. A voter
that held it when it voted has checked that the candidate's log is as long, and since the bytes
under an LSN are the same everywhere (`Fresh`), the candidate has the record. `Guarded` and
`Settled` ask for the rest: a stream must not outlive its follower's vote, acknowledgements are
counted once, a voter has not vouched for more than the LSN it compares, and the voters of a
candidacy that is promoted have not moved on. **`leader_completeness`** is the result;
**`promotes_without_record`** is a deposed primary with an unreplicated record of its own under the
LSN of an acknowledged one.
-/

namespace Vyrn

namespace Cluster

open Function (update update_of_ne update_self)
open List Transition

variable {R : Type} {config : Membership} {initial : String} {lsn : Nat} {name : String}

/-- Old business is settled: a stream is registered when no other one of its replica is, a vote is
    decided when the voter vouched for nothing past the LSN it read, and a candidate is promoted
    while its voters are still at its epoch. -/
@[reducible] def Settled (s : Cluster R) : Event R → Prop
  | .register id => ∀ st ∈ s.streams[id]?, ∀ entry ∈ (s.replication st.primary).replicas,
    s.owner st.primary entry.1 ≠ st.replica
  | .vote handler => s.vouched handler.voter ≤ handler.ownLsn
  | .promote candidate => ∀ candidacy ∈ s.candidacy candidate, ∀ voter ∈ candidacy.votes,
    (s.failover voter).epoch = candidacy.epoch
  | _ => True

instance (s : Cluster R) (event : Event R) : Decidable (Settled s event) := by
  apply @Event.casesOn _ _ event <;> intros <;> infer_instance

/-- The condition on the events of a run. -/
@[reducible] def Orderly (config : Membership) (s : Cluster R) (event : Event R) : Prop :=
  Fresh config s event ∧ Guarded s event ∧ Settled s event

/-! ## What is durable -/

/-- More members than a majority can miss hold the record durably. -/
def Safe (config : Membership) (s : Cluster R) (lsn : Nat) (r : R) : Prop :=
  ∃ holders : Finset String, holders ⊆ config.names.toFinset ∧ config.minAcks + 1 ≤ holders.card ∧
    ∀ name ∈ holders, lsn ≤ s.vouched name ∧ recordAt (s.log name) lsn = some r

/-- Enough other members vouch for an LSN. -/
def Backed (config : Membership) (vouched : String → Nat) (name : String) (lsn : Nat) : Prop :=
  ∃ owners : Finset String, config.minAcks ≤ owners.card ∧
    ∀ owner ∈ owners, owner ∈ config.names ∧ owner ≠ name ∧ lsn ≤ vouched owner

/-- Members vouch for what they synced, watermarks for what their members vouched for, a quorum
    that was reached for as many other members, and what was answered is safe. -/
structure Kept (config : Membership) (s : Cluster R) : Prop where
  synced : ∀ name, s.synced name ≤ (s.log name).length
  vouched : ∀ name, s.vouched name ≤ s.synced name
  minAcks : ∀ name, (s.replication name).minAcks = config.minAcks
  tallied : ∀ name, (s.replication name).Tallied (s.owner name) s.vouched
  registered : ∀ name, ∀ entry ∈ (s.replication name).replicas,
    s.owner name entry.1 ∈ config.names ∧ s.owner name entry.1 ≠ name
  owned : ∀ st ∈ s.streams, st.registered = true → s.owner st.primary st.slot = st.replica ∧
    st.slot < (s.replication st.primary).nextReplica
  acks : ∀ st ∈ s.streams, ∀ lsn ∈ st.acks, lsn ≤ s.vouched st.replica
  backed : ∀ name, ∀ lsn ∈ s.reached name, lsn ≠ 0 → Backed config s.vouched name lsn
  answered : ∀ w ∈ s.answered, Safe config s w.1 w.2

variable {s t : Cluster R} {st : Stream R} {member : String} {candidacy : Candidacy} {r : R}
  {event : Event R} {lsn : Nat}

/-- Logs change, but not below what their members vouch for. -/
theorem Safe.mono (h : Safe config s lsn r) (hvouched : ∀ name, s.vouched name ≤ t.vouched name)
    (hlog : ∀ name, ∀ lsn ≤ s.vouched name, recordAt (s.log name) lsn = some r →
      recordAt (t.log name) lsn = some r) : Safe config t lsn r := by
  obtain ⟨holders, hsub, hcard, hholders⟩ := h
  refine ⟨holders, hsub, hcard, fun name hname => ?_⟩
  obtain ⟨hle, hrecord⟩ := hholders name hname
  exact ⟨hle.trans (hvouched name), hlog name lsn hle hrecord⟩

theorem Kept.grow (h : Kept config s) (name : String) (record : R) :
    Kept config { s with log := update s.log name (s.log name ++ [record]) } := by
  have hlog := prefix_update s.log name record
  refine { h with synced := fun other => ?_, answered := fun w hw => ?_ }
  · exact (h.synced other).trans (hlog other).length_le
  · exact (h.answered w hw).mono (fun _ => le_rfl)
      (fun other _ _ hr => recordAt_prefix_mono (hlog other) hr)

/-- What holds of every member holds after its two records are updated, if it holds of them. -/
theorem forall_update₂ {α β : Type} (f : String → α) (g : String → β) {a : α} {b : β}
    (p : String → α → β → Prop) (hself : p name a b)
    (hother : ∀ other, p other (f other) (g other)) :
    ∀ other, p other (update f name a other) (update g name b other) := by
  intro other
  by_cases hname : other = name
  · rw [hname, update_self, update_self]
    exact hself
  · rw [update_of_ne hname, update_of_ne hname]
    exact hother other

theorem le_vouch (s : Cluster R) (name : String) (lsn : Nat) :
    ∀ other, s.vouched other ≤ update s.vouched name (max (s.vouched name) lsn) other :=
  forall_update s.vouched (fun other lsn => s.vouched other ≤ lsn) (le_max_left _ _)
    (fun _ => le_rfl)

section

variable (h : Kept config s) {id : Nat}
include h

theorem Kept.vouch (hlsn : lsn ≤ s.synced name) :
    Kept config { s with vouched := update s.vouched name (max (s.vouched name) lsn) } := by
  have hmore := le_vouch s name lsn
  refine { h with
    vouched := ?_
    tallied := fun other => (h.tallied other).mono hmore
    acks := fun st hst lsn hlsn => (h.acks st hst lsn hlsn).trans (hmore _)
    backed := fun name lsn hreached hpos => ?_
    answered := fun w hw => (h.answered w hw).mono hmore (fun _ _ _ hr => hr) }
  · exact forall_update s.vouched (fun other lsn => lsn ≤ s.synced other)
      (Nat.max_le.mpr ⟨h.vouched name, hlsn⟩) h.vouched
  · obtain ⟨owners, hcard, howners⟩ := h.backed name lsn hreached hpos
    refine ⟨owners, hcard, fun owner howner => ?_⟩
    obtain ⟨hname, hother, hle⟩ := howners owner howner
    exact ⟨hname, hother, hle.trans (hmore owner)⟩

/-- A stream's own fields change. -/
theorem Kept.stream (hst : s.streams[id]? = some st) (after : Stream R)
    (hends : (after.primary, after.replica, after.slot) = (st.primary, st.replica, st.slot))
    (hopen : after.registered = true → st.registered = true)
    (hacks : ∀ lsn ∈ after.acks, lsn ≤ s.vouched st.replica) :
    Kept config { s with streams := s.streams.set id after } := by
  obtain ⟨hprimary, hreplica, hslot⟩ : after.primary = st.primary ∧ after.replica = st.replica ∧
    after.slot = st.slot := by simpa using hends
  refine { h with owned := ?_, acks := ?_ }
  · refine forall_mem_set h.owned (fun hafter => ?_)
    rw [hprimary, hreplica, hslot]
    exact h.owned st (mem_of_getElem? hst) (hopen hafter)
  · refine forall_mem_set h.acks ?_
    rw [hreplica]
    exact hacks

/-- The registry of one primary changes: no stream becomes newer. -/
theorem Kept.registry (name : String) (after : Replication)
    (hminAcks : after.minAcks = (s.replication name).minAcks)
    (htallied : after.Tallied (s.owner name) s.vouched)
    (hregistered : ∀ entry ∈ after.replicas, ∃ old ∈ (s.replication name).replicas, entry.1 = old.1)
    (hnext : after.nextReplica = (s.replication name).nextReplica) :
    Kept config { s with replication := update s.replication name after } := by
  have hsame := forall_update s.replication (fun other registry =>
    registry.nextReplica = (s.replication other).nextReplica) hnext (fun _ => rfl)
  refine { h with minAcks := ?_, tallied := ?_, registered := ?_, owned := fun st hst hopen => ?_ }
  · exact forall_update s.replication (fun _ registry => registry.minAcks = config.minAcks)
      (hminAcks.trans (h.minAcks name)) h.minAcks
  · exact forall_update s.replication (fun other registry =>
      registry.Tallied (s.owner other) s.vouched) htallied h.tallied
  · refine forall_update s.replication (fun other registry => ∀ entry ∈ registry.replicas,
      s.owner other entry.1 ∈ config.names ∧ s.owner other entry.1 ≠ other)
      (fun entry hentry => ?_) h.registered
    obtain ⟨old, hold, hentry⟩ := hregistered entry hentry
    rw [hentry]
    exact h.registered name old hold
  · show _ ∧ st.slot < (update s.replication name after st.primary).nextReplica
    rw [hsame]
    exact h.owned st hst hopen

/-- A stream that ends is no longer counted. -/
theorem Kept.close (hst : s.streams[id]? = some st) : Kept config (s.close id st) := by
  have hclosed : ∀ {u : Cluster R}, Kept config u → u.streams[id]? = some st →
      Kept config { u with streams := u.streams.set id { st with alive := false } } :=
    fun hkept hst => hkept.stream hst { st with alive := false } rfl nofun
      (hkept.acks st (mem_of_getElem? hst))
  rw [Cluster.close]
  split_ifs
  · have hderegistered := h.registry st.primary ((s.replication st.primary).deregister st.slot) rfl
      ((h.tallied st.primary).deregister st.slot)
      (fun entry hentry => ⟨entry, mem_deregister hentry, rfl⟩) rfl
    exact { hclosed hderegistered hst with }
  · exact hclosed h hst

/-- A delivered acknowledgement is of what the stream's replica vouches for. -/
theorem Kept.deliver {rest : List Nat} (hst : s.streams[id]? = some st)
    (hopen : st.registered = true) (hacks : st.acks = lsn :: rest) :
    Kept config (s.deliver id st lsn rest) := by
  have hmem := mem_of_getElem? hst
  have hdurable := h.acks st hmem
  rw [hacks] at hdurable
  have hmark : lsn ≤ s.vouched (s.owner st.primary st.slot) := by
    rw [(h.owned st hmem hopen).1]
    exact hdurable lsn mem_cons_self
  have hacknowledged := h.registry st.primary ((s.replication st.primary).acknowledge st.slot lsn)
    rfl ((h.tallied st.primary).acknowledge hmark)
    (fun entry hentry => by
      obtain ⟨old, hold, hsame, -⟩ := mem_acknowledge hentry
      exact ⟨old, hold, hsame⟩) rfl
  exact { hacknowledged.stream hst { st with acks := rest } rfl (fun ha => ha)
    (fun lsn hlsn => hdurable lsn (mem_cons_of_mem _ hlsn)) with }

/-- A new stream is counted for its replica, which has no other. -/
theorem Kept.register (hwired : Wired config s) (hst : s.streams[id]? = some st)
    (hsettled : ∀ entry ∈ (s.replication st.primary).replicas,
      s.owner st.primary entry.1 ≠ st.replica) : Kept config (s.register id st) := by
  have hmem := mem_of_getElem? hst
  obtain ⟨-, hreplica, hother⟩ := hwired.ends st hmem
  have htallied := h.tallied st.primary
  refine { h with
    minAcks := ?_
    tallied := ?_
    registered := ?_
    owned := forall_mem_set (fun st' hst' hopen => ?_) (fun _ => ?_)
    acks := forall_mem_set h.acks (h.acks st hmem) }
  · exact forall_update s.replication (fun _ registry => registry.minAcks = config.minAcks)
      (h.minAcks st.primary) h.minAcks
  · exact forall_update₂ s.replication s.owner
      (fun _ registry owner => registry.Tallied owner s.vouched) (htallied.register hsettled)
      h.tallied
  · refine forall_update₂ s.replication s.owner (fun name registry owner =>
      ∀ entry ∈ registry.replicas, owner entry.1 ∈ config.names ∧ owner entry.1 ≠ name)
      (fun entry hentry => ?_) h.registered
    rw [htallied.replicas_register] at hentry
    rcases mem_append.mp hentry with hentry | hentry
    · rw [htallied.owner_register hentry]
      exact h.registered st.primary entry hentry
    · rw [mem_singleton.mp hentry, update_self]
      exact ⟨hreplica, hother⟩
  · show update s.owner st.primary _ st'.primary st'.slot = st'.replica ∧
      st'.slot < (update s.replication st.primary (s.replication st.primary).register.2
        st'.primary).nextReplica
    obtain ⟨howner, hslot⟩ := h.owned st' hst' hopen
    by_cases hname : st'.primary = st.primary
    · rw [hname] at howner hslot
      rw [hname, update_self, update_self, update_of_ne (ne_of_lt hslot)]
      exact ⟨howner, Nat.lt_succ_of_lt hslot⟩
    · rw [update_of_ne hname, update_of_ne hname]
      exact ⟨howner, hslot⟩
  · show update s.owner st.primary _ st.primary (s.replication st.primary).nextReplica =
      st.replica ∧ _ < (update s.replication st.primary _ st.primary).nextReplica
    rw [update_self, update_self, update_self]
    exact ⟨rfl, Nat.lt_succ_self _⟩

/-- The owners of the acknowledgements a quorum counted are other members that vouch for it. -/
theorem Kept.quorum (hquorum : awaitQuorum lsn (s.replication name) [] = .ok ()) :
    Kept config { s with reached := update s.reached name (s.reached name ++ [lsn]) } := by
  refine { h with backed := ?_ }
  refine forall_update s.reached (fun member reached => ∀ lsn ∈ reached, lsn ≠ 0 →
    Backed config s.vouched member lsn) (forall_mem_append.mpr
      ⟨h.backed name, forall_mem_singleton.mpr (fun hpos => ?_)⟩) h.backed
  obtain ⟨owners, hcard, howners⟩ := (h.tallied name).quorum hpos hquorum
  rw [h.minAcks name] at hcard
  refine ⟨owners, hcard, fun owner howner => ?_⟩
  obtain ⟨hle, entry, hentry, rfl⟩ := howners owner howner
  exact ⟨(h.registered name entry hentry).1, (h.registered name entry hentry).2, hle⟩

/-- A crash keeps what the member vouched for. -/
theorem Kept.restart {asPrimary : Bool} :
    Kept config (Cluster.restart config.minAcks s member asPrimary) := by
  have hlength : ((s.log member).take (s.synced member)).length = s.synced member := by
    rw [length_take]
    exact Nat.min_eq_left (h.synced member)
  refine ⟨?_, h.vouched, ?_, ?_, ?_, ?_, ?_, ?_, ?_⟩
  · exact forall_update s.log (fun name log => s.synced name ≤ log.length) hlength.ge h.synced
  · exact forall_update s.replication (fun _ registry => registry.minAcks = config.minAcks) rfl
      h.minAcks
  · exact forall_update₂ s.replication s.owner
      (fun _ registry owner => registry.Tallied owner s.vouched) (tallied_new config.minAcks)
      h.tallied
  · exact forall_update₂ s.replication s.owner (fun name registry owner =>
      ∀ entry ∈ registry.replicas, owner entry.1 ∈ config.names ∧ owner entry.1 ≠ name)
      (forall_mem_nil _) h.registered
  · intro st hst hopen
    obtain ⟨old, hold, -, -, -, hsame⟩ := mem_closeStreamsOf hst
    obtain ⟨rfl, hprimary⟩ := hsame (Bool.and_eq_true_iff.mp hopen).1
    show update s.owner member _ st.primary st.slot = st.replica ∧
      st.slot < (update s.replication member _ st.primary).nextReplica
    rw [update_of_ne hprimary, update_of_ne hprimary]
    exact h.owned st hold hopen
  · intro st hst
    obtain ⟨old, hold, rfl⟩ := mem_map.mp hst
    split_ifs <;> exact h.acks old hold
  · exact forall_update s.reached (fun member reached => ∀ lsn ∈ reached, lsn ≠ 0 →
      Backed config s.vouched member lsn) (forall_mem_nil _) h.backed
  · intro w hw
    refine (h.answered w hw).mono (fun _ => le_rfl) (fun name lsn hle hr => ?_)
    show recordAt (update s.log member _ name) lsn = some w.2
    by_cases hname : name = member
    · rw [hname] at hr hle
      rw [hname, update_self]
      obtain ⟨hpos, hget⟩ := recordAt_eq_some.mp hr
      have hkept := hle.trans (h.vouched member)
      exact recordAt_eq_some.mpr ⟨hpos, by rw [getElem?_take_of_lt (by omega)]; exact hget⟩
    · rw [update_of_ne hname]
      exact hr

end

/-- A member whose log reaches an LSN has the record everyone has there. -/
theorem Agreed.held (h : Agreed config s) (hname : name ∈ config.names)
    (hheld : Held config s lsn r) (hpos : 0 < lsn) (hle : lsn ≤ (s.log name).length) :
    recordAt (s.log name) lsn = some r := by
  obtain ⟨r', hr'⟩ := exists_recordAt hpos hle
  rw [hr', h.agree (held_log hname hr') hheld]

/-- The answered write is safe: the members behind its quorum hold it, and the primary. -/
theorem Kept.answer {record : R} (h : Kept config s) (hagreed : Agreed config s)
    (hmember : member ∈ config.names) (hreached : lsn ∈ s.reached member)
    (hsynced : lsn ≤ s.synced member) (hrecord : recordAt (s.log member) lsn = some record) :
    Kept config (s.answer member lsn record) := by
  have hpos := (recordAt_eq_some.mp hrecord).1
  have hvouched := h.vouch hsynced
  obtain ⟨owners, hcard, howners⟩ := h.backed member lsn hreached (Nat.pos_iff_ne_zero.mp hpos)
  have hoff : member ∉ owners := fun hin => (howners member hin).2.1 rfl
  have hsafe : Safe config (s.answer member lsn record) lsn record := by
    refine ⟨insert member owners, ?_, ?_, ?_⟩
    · intro name hname
      rw [mem_toFinset]
      rcases Finset.mem_insert.mp hname with rfl | hname
      · exact hmember
      · exact (howners name hname).1
    · rw [Finset.card_insert_of_notMem hoff]
      exact Nat.succ_le_succ hcard
    · intro name hname
      rcases Finset.mem_insert.mp hname with rfl | hname
      · refine ⟨?_, hrecord⟩
        show lsn ≤ update s.vouched name (max (s.vouched name) lsn) name
        rw [update_self]
        exact le_max_right _ _
      · obtain ⟨hname, -, hle⟩ := howners name hname
        exact ⟨hle.trans (le_vouch s member lsn _), hagreed.held hname (held_log hmember hrecord)
          hpos (hle.trans ((h.vouched _).trans (h.synced _)))⟩
  refine { hvouched with answered := forall_mem_append.mpr ⟨hvouched.answered, ?_⟩ }
  exact forall_mem_singleton.mpr hsafe

/-- **STEP**: a settled event keeps what was answered safe. -/
theorem Kept.step (h : Kept config s) (hagreed : Agreed config s) (hwired : Wired config s)
    (hsettled : Settled s event) (hstep : Step config initial s event t) : Kept config t := by
  cases hstep.move with
  | @write member record => exact { h.grow member record with }
  | @sync member =>
    refine { h with synced := ?_, vouched := ?_ }
    · exact forall_update s.synced (fun name lsn => lsn ≤ (s.log name).length) le_rfl h.synced
    · exact forall_update s.synced (fun name lsn => s.vouched name ≤ lsn)
        ((h.vouched member).trans (h.synced member)) h.vouched
  | quorum hquorum => exact h.quorum hquorum
  | answer hmember hreached hsynced hrecord =>
    exact h.answer hagreed hmember hreached hsynced hrecord
  | queue | prune | stand | solicit | ask | observe | demote | vote | respond | yield | count
  | ignore | giveUp | promote | stepDown | cut | compare | hangUp => exact { h with }
  | restart => exact h.restart
  | join =>
    exact { h with
      owned := forall_mem_append.mpr ⟨h.owned, forall_mem_singleton.mpr nofun⟩
      acks := forall_mem_append.mpr ⟨h.acks, forall_mem_singleton.mpr nofun⟩ }
  | @announce _ st hst halive hphase =>
    refine { h.stream hst { st with phase := _, frames := st.frames ++ [_] } rfl
      (fun hopen => ?_) (h.acks st (mem_of_getElem? hst)) with }
    rcases hphase with hphase | hphase
    · rw [Stream.registered, if_pos hphase] at hopen
      exact absurd (Bool.and_eq_true_iff.mp hopen).2 Bool.false_ne_true
    · rw [Stream.registered, halive, hphase]
      rfl
  | @send _ lsn st _ hst =>
    exact { h.stream hst { st with next := lsn + 1, frames := st.frames ++ [_] } rfl
      (fun ha => ha) (h.acks st (mem_of_getElem? hst)) with }
  | @register _ st hst => exact h.register hwired hst (hsettled st hst)
  | @beat _ st hst halive hphase =>
    exact h.stream hst { st with phase := .beating } rfl
      (fun _ => by rw [Stream.registered, halive, hphase]; rfl) (h.acks st (mem_of_getElem? hst))
  | @apply replica _ _ _ st bytes rest _ hst =>
    exact { (h.stream hst { st with frames := rest } rfl (fun ha => ha)
      (h.acks st (mem_of_getElem? hst))).grow replica bytes with }
  | @skip _ _ _ _ st _ rest hst | @accept _ _ _ st rest _ hst =>
    exact { h.stream hst { st with frames := rest } rfl (fun ha => ha)
      (h.acks st (mem_of_getElem? hst)) with }
  | @fill replica _ _ record => exact h.grow replica record
  | @acknowledge replica _ lsn _ st hup hst _ hsynced =>
    have hvouched := h.vouch hsynced
    refine { hvouched.stream hst { st with acks := st.acks ++ [lsn] } rfl (fun ha => ha)
      (fun ack hack => ?_) with }
    rcases mem_append.mp hack with hack | hack
    · exact hvouched.acks st (mem_of_getElem? hst) ack hack
    · rw [mem_singleton.mp hack, hwired.taken hup hst]
      show lsn ≤ update s.vouched replica (max (s.vouched replica) lsn) replica
      rw [update_self]
      exact le_max_right _ _
  | deliver hst hopen hacks => exact h.deliver hst hopen hacks
  | drop hst | quit hst => exact h.close hst

theorem Started.kept (h : Started config initial s) : Kept config s := by
  refine ⟨h.durable, ?_, ?_, ?_, ?_, by simp [h.streams], by simp [h.streams],
    by simp [h.reached], by simp [h.answered]⟩
  · intro name
    rw [h.vouched name]
    exact Nat.zero_le _
  · intro name
    rw [h.replication name]
    rfl
  · intro name
    rw [h.replication name]
    exact tallied_new config.minAcks
  · intro name entry hentry
    rw [h.replication name] at hentry
    exact absurd hentry not_mem_nil

/-! ## What a vote covers -/

/-- A candidate's log is as long as what its voters vouch for, as long as they are at its epoch and
    nobody was promoted in it. -/
structure Covered (s : Cluster R) : Prop where
  requested : ∀ r ∈ s.requests, r.epoch ≤ (s.failover r.candidate).epoch
  granted : ∀ g ∈ s.grants, g.epoch ≤ (s.failover g.candidate).epoch
  reached : ∀ w ∈ s.won, w.1 ≤ (s.failover w.2).epoch
  stood : ∀ {name candidacy}, s.candidacy name = some candidacy →
    ⟨name, candidacy.epoch, name⟩ ∈ s.grants
  promised : ∀ {name candidacy}, s.candidacy name = some candidacy → ∀ r ∈ s.requests,
    r.candidate = name → r.epoch = candidacy.epoch → r.durableLsn ≤ (s.log name).length
  undecided : ∀ {name candidacy}, s.candidacy name = some candidacy →
    (candidacy.epoch, name) ∉ s.won
  votes : ∀ {name candidacy voter}, s.candidacy name = some candidacy →
    ⟨voter, candidacy.epoch, name⟩ ∈ s.grants → (s.failover voter).epoch = candidacy.epoch →
    ¬ Ruled s.won candidacy.epoch → s.vouched voter ≤ (s.log name).length

/-- A candidacy that goes on stays in its epoch. -/
theorem candidacy_update {after c : Candidacy} {other : String}
    (hcandidacy : s.candidacy name = some candidacy)
    (hc : update s.candidacy name (some after) other = some c)
    (hepoch : candidacy.epoch = after.epoch) :
    ∃ old, s.candidacy other = some old ∧ old.epoch = c.epoch := by
  by_cases hother : other = name
  · rw [hother, update_self] at hc
    cases hc
    rw [hother]
    exact ⟨candidacy, hcandidacy, hepoch⟩
  · rw [update_of_ne hother] at hc
    exact ⟨c, hc, rfl⟩

section

variable (h : Covered s)
include h

section

variable (helected : Elected config initial s)
include helected

/-- The fields that matter may change like this: epochs rise, candidacies end or count votes, the
    log of a candidate grows, and who vouches for more is at an epoch that has a leader. -/
theorem Covered.keep (hepoch : ∀ name, (s.failover name).epoch ≤ (t.failover name).epoch)
    (hrequests : t.requests = s.requests) (hgrants : t.grants = s.grants) (hwon : t.won = s.won)
    (hcandidacy : ∀ {name candidacy}, t.candidacy name = some candidacy →
      (s.log name).length ≤ (t.log name).length ∧
      ∃ old, s.candidacy name = some old ∧ old.epoch = candidacy.epoch)
    (hvouched : ∀ name, t.vouched name = s.vouched name ∨
      Ruled s.won (s.failover name).epoch) : Covered t := by
  refine ⟨?_, ?_, ?_, ?_, ?_, ?_, ?_⟩
  · rw [hrequests]
    exact fun r hr => (h.requested r hr).trans (hepoch _)
  · rw [hgrants]
    exact fun g hg => (h.granted g hg).trans (hepoch _)
  · rw [hwon]
    exact fun w hw => (h.reached w hw).trans (hepoch _)
  · intro name candidacy hc
    obtain ⟨-, old, hold, hsame⟩ := hcandidacy hc
    rw [hgrants, ← hsame]
    exact h.stood hold
  · intro name candidacy hc
    obtain ⟨hlog, old, hold, hsame⟩ := hcandidacy hc
    rw [hrequests, ← hsame]
    exact fun r hr hname hepoch => (h.promised hold r hr hname hepoch).trans hlog
  · intro name candidacy hc
    obtain ⟨-, old, hold, hsame⟩ := hcandidacy hc
    rw [hwon, ← hsame]
    exact h.undecided hold
  · intro name candidacy voter hc hgrant hlevel hruled
    obtain ⟨hlog, old, hold, hsame⟩ := hcandidacy hc
    rw [hgrants, ← hsame] at hgrant
    rw [← hsame] at hlevel
    rw [hwon, ← hsame] at hruled
    -- the voter was at this epoch before: it voted in it
    have hbefore : (s.failover voter).epoch = old.epoch :=
      le_antisymm ((hepoch voter).trans (le_of_eq hlevel))
        ((helected.remembered _ hgrant).2.trans (helected.believed voter))
    rcases hvouched voter with hvouched | hled
    · rw [hvouched]
      exact (h.votes hold hgrant hbefore hruled).trans hlog
    · rw [hbefore] at hled
      exact absurd hled hruled

/-- One who stands has asked nobody yet, and its own log has what it vouched for. -/
theorem Covered.stand (hkept : Kept config s)
    (hepoch : ∀ name, (s.failover name).epoch ≤ ((s.stand member).failover name).epoch) :
    Covered (s.stand member) := by
  have hself : ((s.stand member).failover member).epoch = (s.failover member).epoch + 1 := by
    show (update s.failover member _ member).epoch = _
    rw [update_self, Failover.stand_epoch]
  -- the epoch is new: nobody was asked, granted or promoted in it
  have hcandidacy : ∀ {name candidacy}, (s.stand member).candidacy name = some candidacy →
      (name = member ∧ candidacy = ⟨(s.failover member).epoch + 1, none, [member]⟩)
        ∨ (name ≠ member ∧ s.candidacy name = some candidacy) := by
    intro name candidacy hc
    have hc : update s.candidacy member _ name = some candidacy := hc
    by_cases hname : name = member
    · rw [hname, update_self] at hc
      exact .inl ⟨hname, (Option.some.inj hc).symm⟩
    · rw [update_of_ne hname] at hc
      exact .inr ⟨hname, hc⟩
  refine ⟨?_, ?_, ?_, ?_, ?_, ?_, ?_⟩
  · exact fun r hr => (h.requested r hr).trans (hepoch _)
  · exact forall_mem_append.mpr ⟨fun g hg => (h.granted g hg).trans (hepoch _),
      forall_mem_singleton.mpr hself.ge⟩
  · exact fun w hw => (h.reached w hw).trans (hepoch _)
  · intro name candidacy hc
    rcases hcandidacy hc with ⟨rfl, rfl⟩ | ⟨-, hold⟩
    · exact mem_append_right _ (mem_singleton_self _)
    · exact mem_append_left _ (h.stood hold)
  · intro name candidacy hc
    rcases hcandidacy hc with ⟨rfl, rfl⟩ | ⟨-, hold⟩
    · intro r hr hrname hrepoch
      have hseen := h.requested r hr
      rw [hrname, hrepoch] at hseen
      exact absurd hseen (Nat.not_succ_le_self _)
    · exact h.promised hold
  · intro name candidacy hc
    rcases hcandidacy hc with ⟨rfl, rfl⟩ | ⟨-, hold⟩
    · intro hwon
      exact absurd (h.reached _ hwon) (Nat.not_succ_le_self _)
    · exact h.undecided hold
  · intro name candidacy voter hc hgrant hlevel hruled
    rcases hcandidacy hc with ⟨rfl, rfl⟩ | ⟨hname, hold⟩
    · rcases mem_append.mp hgrant with hgrant | hgrant
      · exact absurd (h.granted _ hgrant) (Nat.not_succ_le_self _)
      · -- its own vote
        cases mem_singleton.mp hgrant
        exact (hkept.vouched _).trans (hkept.synced _)
    · rcases mem_append.mp hgrant with hgrant | hgrant
      · refine h.votes hold hgrant (le_antisymm ?_ ?_) hruled
        · exact (hepoch voter).trans (le_of_eq hlevel)
        · exact (helected.remembered _ hgrant).2.trans (helected.believed voter)
      · exact absurd (congrArg Grant.candidate (mem_singleton.mp hgrant)) hname

/-- A candidate asks with an LSN its log has. -/
theorem Covered.solicit (hcandidacy : s.candidacy name = some candidacy) :
    Covered (s.solicit name candidacy) := by
  have hkeep := h.keep (t := { s with candidacy := (s.solicit name candidacy).candidacy }) helected
    (fun _ => le_rfl) rfl rfl rfl (fun hc => ⟨le_rfl, candidacy_update hcandidacy hc rfl⟩)
    (fun _ => .inl rfl)
  refine { hkeep with
    requested := forall_mem_append.mpr ⟨h.requested, forall_mem_singleton.mpr ?_⟩
    promised := fun hc => forall_mem_append.mpr ⟨hkeep.promised hc, forall_mem_singleton.mpr ?_⟩ }
  · exact h.granted _ (h.stood hcandidacy)
  · rintro rfl -
    exact le_rfl

/-- A granted vote covers what the voter vouches for. -/
theorem Covered.vote {handler : Handler} (hrequest : handler.request ∈ s.requests)
    (hsettled : s.vouched handler.voter ≤ handler.ownLsn)
    (hepoch : ∀ name, (s.failover name).epoch ≤ ((s.vote handler).failover name).epoch) :
    Covered (s.vote handler) := by
  have hkeep := h.keep (t := { s with failover := (s.vote handler).failover }) helected hepoch
    rfl rfl rfl (fun hc => ⟨le_rfl, _, hc, rfl⟩) (fun _ => .inl rfl)
  rcases (s.failover handler.voter).decideVote_cases handler.request.epoch
    handler.request.durableLsn handler.ownLsn with hverdict | ⟨-, hlsn, hverdict⟩
  · rw [Cluster.vote, hverdict] at hkeep ⊢
    exact { hkeep with }
  · rw [Cluster.vote, hverdict] at hkeep ⊢
    refine { hkeep with
      granted := forall_mem_append.mpr ⟨hkeep.granted,
        forall_mem_singleton.mpr (hkeep.requested handler.request hrequest)⟩
      stood := fun hc => mem_append_left _ (hkeep.stood hc)
      votes := ?_ }
    · intro name candidacy other hc hgrant hlevel hruled
      rcases mem_append.mp hgrant with hgrant | hgrant
      · exact hkeep.votes hc hgrant hlevel hruled
      · -- the new vote compared the logs
        obtain ⟨rfl, hsame, rfl⟩ : other = handler.voter ∧
            candidacy.epoch = handler.request.epoch ∧ name = handler.request.candidate := by
          simpa [Handler.grant] using mem_singleton.mp hgrant
        calc s.vouched handler.voter ≤ handler.ownLsn := hsettled
          _ ≤ handler.request.durableLsn := hlsn
          _ ≤ (s.log handler.request.candidate).length :=
            h.promised hc handler.request hrequest rfl hsame.symm

omit helected in
/-- A member is promoted in the epoch it stood in. -/
theorem Covered.promote (htimely : (s.failover name).epoch = candidacy.epoch) :
    Covered (s.promote name candidacy) := by
  have hepoch := promote_epoch s name candidacy
  have hcandidacy : ∀ {other c}, (s.promote name candidacy).candidacy other = some c →
      other ≠ name ∧ s.candidacy other = some c := update_none
  refine ⟨?_, ?_, ?_, ?_, ?_, ?_, ?_⟩
  · intro r hr
    rw [hepoch]
    exact h.requested r hr
  · intro g hg
    rw [hepoch]
    exact h.granted g hg
  · intro w hw
    rw [hepoch]
    exact forall_mem_append.mpr ⟨h.reached, forall_mem_singleton.mpr htimely.ge⟩ w hw
  · exact fun hc => h.stood (hcandidacy hc).2
  · exact fun hc => h.promised (hcandidacy hc).2
  · intro other c hc hwon
    obtain ⟨hother, hold⟩ := hcandidacy hc
    rcases mem_append.mp hwon with hwon | hwon
    · exact h.undecided hold hwon
    · exact hother (congrArg Prod.snd (mem_singleton.mp hwon))
  · intro other c voter hc hgrant hlevel hruled
    rw [hepoch] at hlevel
    exact h.votes (hcandidacy hc).2 hgrant hlevel
      (fun hled => hruled (hled.mono (fun w hw => mem_append_left _ hw)))

/-- **STEP**: an event that is guarded and settled keeps the promise of every vote. -/
theorem Covered.step (hfenced : Fenced s) (hkept : Kept config s) (hguarded : Guarded s event)
    (hsettled : Settled s event) (hstep : Step config initial s event t) : Covered t := by
  have hepoch := epoch_mono hstep
  have hgrown : ∀ {member name : String} {record : R},
      (s.log name).length ≤ (update s.log member (s.log member ++ [record]) name).length :=
    (prefix_update s.log _ _ _).length_le
  have hvouched : ∀ {member : String} {lsn : Nat}, Ruled s.won (s.failover member).epoch →
      ∀ name, update s.vouched member (max (s.vouched member) lsn) name = s.vouched name ∨
        Ruled s.won (s.failover name).epoch := by
    intro member lsn hruled name
    by_cases hname : name = member
    · rw [hname]
      exact .inr hruled
    · rw [update_of_ne hname]
      exact .inl rfl
  cases hstep.move with
  | queue | sync | quorum | prune | ask | observe | demote | respond | ignore | stepDown | join
  | announce | send | register | beat | quit | cut | compare | skip | accept | deliver | hangUp
  | drop =>
    exact h.keep helected hepoch rfl rfl rfl (fun hc => ⟨le_rfl, _, hc, rfl⟩) (fun _ => .inl rfl)
  | write | apply | fill =>
    exact h.keep helected hepoch rfl rfl rfl (fun hc => ⟨hgrown, _, hc, rfl⟩) (fun _ => .inl rfl)
  | @answer member =>
    exact h.keep helected hepoch rfl rfl rfl (fun hc => ⟨le_rfl, _, hc, rfl⟩)
      (hvouched (hfenced.rules member hguarded.1).2)
  | @restart member =>
    refine h.keep helected hepoch rfl rfl rfl (fun hc => ?_) (fun _ => .inl rfl)
    obtain ⟨hname, hold⟩ := update_none hc
    refine ⟨?_, _, hold, rfl⟩
    show _ ≤ (update s.log member _ _).length
    rw [update_of_ne hname]
  | stand => exact h.stand helected hkept hepoch
  | solicit hcandidacy => exact h.solicit helected hcandidacy
  | vote hhandler => exact h.vote helected (helected.handled _ hhandler).2.1 hsettled hepoch
  | count _ hcandidacy =>
    exact h.keep helected hepoch rfl rfl rfl
      (fun hc => ⟨le_rfl, candidacy_update hcandidacy hc rfl⟩) (fun _ => .inl rfl)
  | yield | giveUp =>
    exact h.keep helected hepoch rfl rfl rfl
      (fun hc => ⟨le_rfl, _, (update_none hc).2, rfl⟩) (fun _ => .inl rfl)
  | promote hcandidacy => exact h.promote (hguarded.1 _ hcandidacy)
  | @acknowledge _ _ _ _ _ _ _ howed =>
    exact h.keep helected hepoch rfl rfl rfl (fun hc => ⟨le_rfl, _, hc, rfl⟩)
      (hvouched (hfenced.owes howed).2.2)

omit helected in
omit h in
theorem Started.covered (h : Started config initial s) : Covered s := by
  have hnone : ∀ {name : String} {candidacy : Candidacy}, s.candidacy name ≠ some candidacy := by
    intro name candidacy hc
    cases (h.candidacies name).symm.trans hc
  exact ⟨by simp [h.requests], by simp [h.grants], by simp [h.won],
    fun hc => absurd hc hnone, fun hc => absurd hc hnone, fun hc => absurd hc hnone,
    fun hc => absurd hc hnone⟩

/-! ## The result -/

/-- A candidate with a majority, all still at its epoch, has every record that is safe. -/
theorem Covered.complete (hagreed : Agreed config s)
    (hcandidacy : s.candidacy name = some candidacy)
    (hvotes : votesNeeded config.members.length ≤ candidacy.votes.length)
    (hsettled : ∀ voter ∈ candidacy.votes, (s.failover voter).epoch = candidacy.epoch)
    (hsafe : Safe config s lsn r) : recordAt (s.log name) lsn = some r := by
  obtain ⟨holders, hsub, _, hholders⟩ := hsafe
  obtain ⟨-, hnodup, hgranted⟩ := helected.counted hcandidacy
  have hmany : config.members.length < holders.card + candidacy.votes.toFinset.card := by
    have hcovers := config.covers
    rw [toFinset_card_of_nodup hnodup]
    rw [votesNeeded] at hvotes
    omega
  obtain ⟨voter, hholder, hvoter⟩ := config.majorities_meet hsub
    (fun voter hvoter => mem_toFinset.mpr
      (helected.members _ (hgranted voter (mem_toFinset.mp hvoter)))) hmany
  have hvoter := mem_toFinset.mp hvoter
  obtain ⟨hle, hrecord⟩ := hholders voter hholder
  -- nobody was promoted in this epoch: it would be this candidate
  have hopen : ¬ Ruled s.won candidacy.epoch := by
    rintro (hzero | ⟨other, hwon⟩)
    · have := (helected.remembered _ (hgranted voter hvoter)).1
      exact absurd hzero (Nat.pos_iff_ne_zero.mp this)
    · have hsame := helected.leads_unique (helected.won _ hwon)
        (helected.leads_of_counted hcandidacy hvotes)
      rw [show other = name from hsame] at hwon
      exact h.undecided hcandidacy hwon
  have hlength := h.votes hcandidacy (hgranted voter hvoter) (hsettled voter hvoter) hopen
  exact hagreed.held (helected.members _ (h.stood hcandidacy))
    (held_log (mem_toFinset.mp (hsub hholder)) hrecord) (recordAt_eq_some.mp hrecord).1
    (hle.trans hlength)

end

end

/-- **COMPLETE**: a member that is promoted has every record that was answered with success. -/
theorem leader_completeness {start s t : Cluster R} {events : List (Event R)} {name : String}
    (hstart : Started config initial start)
    (hrun : Run (Step config initial) (Orderly config) start events s)
    (hsettled : Orderly config s (.promote name))
    (hpromote : Step config initial s (.promote name) t) {lsn : Nat} {r : R}
    (hanswered : (lsn, r) ∈ s.answered) : recordAt (t.log name) lsn = some r := by
  obtain ⟨-, hagreed, helected, -, hkept, hcovered⟩ : Wired config s ∧ Agreed config s ∧
      Elected config initial s ∧ Fenced s ∧ Kept config s ∧ Covered s := by
    refine hrun.invariant (I := fun s => Wired config s ∧ Agreed config s ∧
      Elected config initial s ∧ Fenced s ∧ Kept config s ∧ Covered s) ?_
      ⟨hstart.wired, hstart.agreed, hstart.elected, hstart.fenced, hstart.kept, hstart.covered⟩
    rintro u v event ⟨hwired, hagreed, helected, hfenced, hkept, hcovered⟩
      ⟨hfresh, hguarded, hsettled⟩ hstep
    exact ⟨hwired.step hstep, hagreed.step hwired hfresh hstep, helected.step hguarded.1 hstep,
      hfenced.step hwired hguarded hstep, hkept.step hagreed hwired hsettled hstep,
      hcovered.step helected hfenced hkept hguarded hsettled hstep⟩
  cases hpromote.move with
  | promote hcandidacy hvotes =>
    exact hcovered.complete helected hagreed hcandidacy hvotes
      (hsettled.2.2 _ hcandidacy) (hkept.answered _ hanswered)

/-- `c` follows `a`, which answers its first write once `c` acknowledged it; `c` stands. -/
def answerThenStand : List (Event Nat) :=
  [.join "c" "a", .announce 0, .receive "c", .accept "c", .demote "c", .register 0, .queue "a" 10,
    .write "a", .send 0 1, .receive "c", .sync "c", .acknowledge "c", .deliver 0, .quorum "a" 1,
    .sync "a", .answer "a" 1, .hangUp "c", .stand "c", .solicit "c"] ++
  ballot "b" ⟨"c", 1, 1⟩ 0 true

/-- The write that was answered is in the log of `c` when it is promoted. -/
theorem leader_completeness_one_write :
    ∃ s t, Run (Step trio "a") (Orderly trio) (fresh Nat trio "a") answerThenStand s ∧
      Step trio "a" s (.promote "c") t ∧ (1, 10) ∈ s.answered ∧
      recordAt (t.log "c") 1 = some 10 := by
  simp only [exists_and_left]
  refine exists_run_of (act trio "a") (fun h => h) (p := fun s =>
    (1, 10) ∈ s.answered ∧ Orderly trio s (.promote "c") ∧
      (act trio "a" s (.promote "c")).isSome) (by decide +kernel) ?_
  rintro s hrun ⟨hanswered, horderly, hstep⟩
  obtain ⟨t, hstep⟩ := Option.isSome_iff_exists.mp hstep
  exact ⟨t, hstep, hanswered,
    leader_completeness (fresh_started (by decide)) hrun horderly hstep hanswered⟩

/-- **LOST**: `a` writes 10 and syncs it, alone; `c` elects `b` while `a` refuses and steps back; `b`
    writes 20 under the same LSN and answers it when `c` acknowledged it; `a` is started again as a
    replica, stands, and `c` elects it, since its log is as long as its own. -/
theorem promotes_without_record :
    ∃ s t, Run (Step trio "a") (fun _ _ => True) (fresh Nat trio "a")
        ([.queue "a" 10, .write "a", .sync "a", .stand "b", .solicit "b"] ++
          ballot "a" ⟨"b", 1, 0⟩ 1 false ++ ballot "c" ⟨"b", 1, 0⟩ 0 true ++
          [.promote "b", .join "c" "b", .announce 0, .receive "c", .accept "c", .demote "c",
            .register 0, .queue "b" 20, .write "b", .send 0 1, .sync "b", .receive "c", .sync "c",
            .acknowledge "c", .deliver 0, .quorum "b" 1, .answer "b" 1, .restart "a" false,
            .stand "a", .solicit "a"] ++ ballot "c" ⟨"a", 2, 1⟩ 1 true) s ∧
      Step trio "a" s (.promote "a") t ∧ (1, 20) ∈ s.answered ∧ t.log "a" = [10] := by
  simp only [exists_and_left]
  refine exists_run_of (act trio "a") (fun h => h) (p := fun s =>
    (1, 20) ∈ s.answered ∧ (act trio "a" s (.promote "a")).map (fun t => t.log "a") = some [10])
    (by decide +kernel) ?_
  rintro s - ⟨hanswered, hnext⟩
  obtain ⟨t, hstep, hlog⟩ := Option.map_eq_some_iff.mp hnext
  exact ⟨t, hstep, hanswered, hlog⟩

end Cluster

end Vyrn
