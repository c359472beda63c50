import Vyrn.Cluster.System

/-!
# At most one leader per epoch

A member votes once per epoch, so two candidates cannot both hold a majority of one. What a member
does as primary is tied to the epoch it won only by its current epoch: `Timely` asks that this is
the candidacy's at the promotion, that a configured primary starts only while no epoch was adopted,
and that a member streams and answers only while it `Rules`: in role primary, with no demotion still
to come. **`one_leader_per_epoch`** is the result over every run of that kind; in
**`two_leaders_of_one_epoch`** the configured primary restarts after it voted for its successor.
-/

namespace Vyrn

namespace Cluster

open Function (update update_of_ne update_self forall_update_iff)
open List Transition

variable {R : Type} {config : Membership} {initial : String} {epoch : Nat} {name : String}

/-- `name` won the epoch, or is the configured primary of a cluster that never elected. -/
def Leads (config : Membership) (initial : String) (grants : List Grant) (epoch : Nat)
    (name : String) : Prop :=
  (epoch = 0 ∧ name = initial) ∨
    ∃ votes : Finset String, votesNeeded config.members.length ≤ votes.card ∧
      ∀ voter ∈ votes, ⟨voter, epoch, name⟩ ∈ grants

/-- The role is primary, and no `observe_epoch` is between its two halves. -/
@[reducible] def Rules (s : Cluster R) (name : String) : Prop :=
  (s.failover name).role = .primary ∧ s.deposing name = 0

/-- The condition on an event: the epoch a member acts in is the one it leads. -/
@[reducible] def Timely (s : Cluster R) : Event R → Prop
  | .promote candidate =>
    ∀ candidacy ∈ s.candidacy candidate, (s.failover candidate).epoch = candidacy.epoch
  | .restart member asPrimary => asPrimary = true → (s.failover member).epoch = 0
  | .answer member _ => Rules s member
  | .announce id | .send id _ => ∀ st ∈ s.streams[id]?, Rules s st.primary
  | _ => True

instance (s : Cluster R) (event : Event R) : Decidable (Timely s event) := by
  cases event <;> infer_instance

/-- Votes are remembered and granted once, and whoever leads or led holds a majority. -/
structure Elected (config : Membership) (initial : String) (s : Cluster R) : Prop where
  believed : ∀ name, (s.failover name).epochs.voted ≤ (s.failover name).epoch
  remembered : ∀ g ∈ s.grants, 0 < g.epoch ∧ g.epoch ≤ (s.failover g.voter).epochs.voted
  once : ∀ g ∈ s.grants, ∀ g' ∈ s.grants, g.voter = g'.voter → g.epoch = g'.epoch →
    g.candidate = g'.candidate
  members : ∀ g ∈ s.grants, g.voter ∈ config.names
  asked : ∀ r ∈ s.requests, 0 < r.epoch
  handled : ∀ handler ∈ s.handlers, handler.voter ∈ config.names ∧ handler.request ∈ s.requests ∧
    (handler.granted = some true → handler.grant ∈ s.grants)
  backed : ∀ r ∈ s.responses, r.granted = true → ⟨r.voter, r.epoch, r.candidate⟩ ∈ s.grants
  counted : ∀ {name candidacy}, s.candidacy name = some candidacy → 0 < candidacy.epoch ∧
    candidacy.votes.Nodup ∧ ∀ voter ∈ candidacy.votes, ⟨voter, candidacy.epoch, name⟩ ∈ s.grants
  leads : ∀ name, Rules s name → Leads config initial s.grants (s.failover name).epoch name
  won : ∀ w ∈ s.won, Leads config initial s.grants w.1 w.2
  led : ∀ a ∈ s.acted, Leads config initial s.grants a.1 a.2

/-! ## Majorities -/

theorem Leads.mono {grants more : List Grant} (h : Leads config initial grants epoch name)
    (hmore : ∀ g ∈ grants, g ∈ more) : Leads config initial more epoch name := by
  rcases h with h | ⟨votes, hcard, hvotes⟩
  · exact .inl h
  · exact .inr ⟨votes, hcard, fun voter hvoter => hmore _ (hvotes voter hvoter)⟩

variable {s : Cluster R}

/-- **UNIQUE**: an epoch is led by one member. -/
theorem Elected.leads_unique (h : Elected config initial s) {one other : String}
    (hone : Leads config initial s.grants epoch one)
    (hother : Leads config initial s.grants epoch other) : one = other := by
  have hpositive : ∀ {votes : Finset String} {name : String},
      votesNeeded config.members.length ≤ votes.card →
      (∀ voter ∈ votes, ⟨voter, epoch, name⟩ ∈ s.grants) → 0 < epoch := by
    intro votes name hcard hvotes
    rw [votesNeeded] at hcard
    obtain ⟨voter, hvoter⟩ := Finset.card_pos.mp (show 0 < votes.card by omega)
    exact (h.remembered _ (hvotes voter hvoter)).1
  have hsub : ∀ {votes : Finset String} {name : String},
      (∀ voter ∈ votes, ⟨voter, epoch, name⟩ ∈ s.grants) → votes ⊆ config.names.toFinset :=
    fun hvotes voter hvoter => mem_toFinset.mpr (h.members _ (hvotes voter hvoter))
  rcases hone with ⟨hzero, hone⟩ | ⟨votes, hcard, hvotes⟩
  · rcases hother with ⟨-, hother⟩ | ⟨votes', hcard', hvotes'⟩
    · rw [hone, hother]
    · have := hpositive hcard' hvotes'
      omega
  · rcases hother with ⟨_, -⟩ | ⟨votes', hcard', hvotes'⟩
    · have := hpositive hcard hvotes
      omega
    · -- the two majorities share a voter, who voted once in this epoch
      have hmany : config.members.length < votes.card + votes'.card := by
        rw [votesNeeded] at hcard hcard'
        omega
      obtain ⟨voter, hvoter, hvoter'⟩ :=
        config.majorities_meet (hsub hvotes) (hsub hvotes') hmany
      exact h.once _ (hvotes voter hvoter) _ (hvotes' voter hvoter') rfl rfl

/-- A majority that was counted makes a leader. -/
theorem Elected.leads_of_counted (h : Elected config initial s)
    {candidacy : Candidacy} (hcandidacy : s.candidacy name = some candidacy)
    (hvotes : votesNeeded config.members.length ≤ candidacy.votes.length) :
    Leads config initial s.grants candidacy.epoch name := by
  obtain ⟨-, hnodup, hgranted⟩ := h.counted hcandidacy
  refine .inr ⟨candidacy.votes.toFinset, ?_, fun voter hvoter => ?_⟩
  · rw [toFinset_card_of_nodup hnodup]
    exact hvotes
  · exact hgranted voter (mem_toFinset.mp hvoter)

/-! ## Steps -/

section

variable (h : Elected config initial s) {name : String}
include h

/-- A member's epochs may rise, as long as they do not rise under one that rules. -/
theorem Elected.advance (name : String) (after : Failover) (deposing : String → Nat)
    (hothers : ∀ other, other ≠ name → deposing other = s.deposing other)
    (hvoted : (s.failover name).epochs.voted ≤ after.epochs.voted)
    (hbelieved : after.epochs.voted ≤ after.epoch)
    (hrole : after.role = .primary → deposing name = 0 →
      Leads config initial s.grants after.epoch name) :
    Elected config initial
      { s with failover := update s.failover name after, deposing := deposing } := by
  have hrisen := forall_update s.failover (fun other failover =>
    (s.failover other).epochs.voted ≤ failover.epochs.voted) hvoted (fun _ => le_rfl)
  refine { h with believed := ?_, remembered := fun g hg => ?_, leads := ?_ }
  · exact forall_update s.failover (fun _ failover => failover.epochs.voted ≤ failover.epoch)
      hbelieved h.believed
  · exact ⟨(h.remembered g hg).1, (h.remembered g hg).2.trans (hrisen g.voter)⟩
  · rintro other ⟨hprimary, hidle⟩
    refine (forall_update_iff s.failover (fun other failover => failover.role = .primary →
      deposing other = 0 → Leads config initial s.grants failover.epoch other)).mpr
      ⟨hrole, fun other hother hprimary hidle => ?_⟩ other hprimary hidle
    rw [hothers other hother] at hidle
    exact h.leads other ⟨hprimary, hidle⟩

/-- Storing an epoch announces the demotion, so nothing is claimed of the member until then. -/
theorem Elected.observe (name : String) (epoch : Nat) :
    Elected config initial (s.observe name epoch) := by
  refine h.advance name _ _ (fun other hother => update_of_ne hother _ _) le_rfl
    ((h.believed name).trans (le_max_left _ _)) (fun _ hidle => ?_)
  rw [update_self] at hidle
  exact absurd hidle (Nat.succ_ne_zero _)

/-- A new vote, in an epoch above every epoch its voter has voted in. -/
theorem Elected.grant (after : Failover) (candidate : String) (hmember : name ∈ config.names)
    (hpositive : 0 < epoch) (hnew : (s.failover name).epochs.voted < epoch)
    (hvoted : after.epochs.voted = epoch) (hepoch : epoch ≤ after.epoch)
    (hrole : after.role = .primary → s.deposing name = 0 →
      Leads config initial s.grants after.epoch name) :
    Elected config initial
      { s with
        failover := update s.failover name after
        grants := s.grants ++ [⟨name, epoch, candidate⟩] } := by
  have hadvanced := h.advance name after s.deposing (fun _ _ => rfl) (hvoted ▸ hnew.le)
    (hvoted.le.trans hepoch) hrole
  have hmore : ∀ g ∈ s.grants, g ∈ s.grants ++ [⟨name, epoch, candidate⟩] :=
    fun g hg => mem_append_left _ hg
  have hbefore : ∀ g ∈ s.grants, g.voter = name → g.epoch < epoch := by
    rintro g hg rfl
    exact lt_of_le_of_lt (h.remembered g hg).2 hnew
  have hsplit : ∀ {g : Grant}, g ∈ s.grants ++ [⟨name, epoch, candidate⟩] →
      g ∈ s.grants ∨ g = ⟨name, epoch, candidate⟩ := by
    intro g hg
    exact (mem_append.mp hg).imp id mem_singleton.mp
  refine { hadvanced with
    remembered := forall_mem_append.mpr ⟨hadvanced.remembered, forall_mem_singleton.mpr ?_⟩
    once := ?_
    members := forall_mem_append.mpr ⟨h.members, forall_mem_singleton.mpr hmember⟩
    handled := ?_
    backed := fun r hr hgranted => hmore _ (h.backed r hr hgranted)
    counted := ?_
    leads := fun other hrules => (hadvanced.leads other hrules).mono hmore
    won := fun w hw => (h.won w hw).mono hmore
    led := fun a ha => (h.led a ha).mono hmore }
  · show 0 < epoch ∧ epoch ≤ (update s.failover name after name).epochs.voted
    rw [update_self, hvoted]
    exact ⟨hpositive, le_rfl⟩
  · intro g hg g' hg' hvoter hsame
    rcases hsplit hg with hg | rfl
    · rcases hsplit hg' with hg' | rfl
      · exact h.once g hg g' hg' hvoter hsame
      · exact absurd hsame (ne_of_lt (hbefore g hg hvoter))
    · rcases hsplit hg' with hg' | rfl
      · exact absurd hsame.symm (ne_of_lt (hbefore g' hg' hvoter.symm))
      · rfl
  · intro handler hhandler
    obtain ⟨hvoter, hrequest, hgranted⟩ := h.handled handler hhandler
    exact ⟨hvoter, hrequest, fun hg => hmore _ (hgranted hg)⟩
  · intro other candidacy hcandidacy
    obtain ⟨hstood, hnodup, hgranted⟩ := h.counted hcandidacy
    exact ⟨hstood, hnodup, fun voter hvoter => hmore _ (hgranted voter hvoter)⟩

/-- A candidacy may end, or count a vote that was granted. -/
theorem Elected.candidacy (name : String) (candidacy : Option Candidacy)
    (hcounted : ∀ c, candidacy = some c → 0 < c.epoch ∧ c.votes.Nodup ∧
      ∀ voter ∈ c.votes, ⟨voter, c.epoch, name⟩ ∈ s.grants) :
    Elected config initial { s with candidacy := update s.candidacy name candidacy } := by
  have hall := forall_update s.candidacy (fun other held => ∀ c, held = some c →
    0 < c.epoch ∧ c.votes.Nodup ∧ ∀ voter ∈ c.votes, ⟨voter, c.epoch, other⟩ ∈ s.grants)
    hcounted (fun _ _ hc => h.counted hc)
  exact { h with counted := fun {other c} => hall other c }

/-- A member acts in the epoch it leads. -/
theorem Elected.acts (hrules : Rules s name) :
    Elected config initial { s with acted := s.acted ++ [((s.failover name).epoch, name)] } := by
  refine { h with led := forall_mem_append.mpr ⟨h.led, ?_⟩ }
  exact forall_mem_singleton.mpr (h.leads name hrules)

/-- A candidacy counts the candidate's own vote. -/
theorem Elected.stand (hmember : name ∈ config.names) (hrole : (s.failover name).role = .follower) :
    Elected config initial (s.stand name) := by
  have hnew : (s.failover name).epochs.voted < (s.failover name).stand.1 :=
    Nat.lt_succ_of_le (h.believed name)
  have hvoted : (s.failover name).stand.2.epochs.voted = (s.failover name).stand.1 :=
    Nat.max_eq_right (le_of_lt hnew)
  have hgranted := h.grant _ name hmember (Nat.succ_pos _) hnew hvoted
    (le_of_eq (Failover.stand_epoch _).symm) (fun hc => by
      rw [show (s.failover name).stand.2.role = (s.failover name).role from rfl, hrole] at hc
      cases hc)
  exact hgranted.candidacy name (some ⟨(s.failover name).stand.1, none, [name]⟩) (by
    rintro c hc
    cases hc
    refine ⟨Nat.succ_pos _, nodup_singleton _, fun voter hvoter => ?_⟩
    rw [mem_singleton.mp hvoter]
    exact mem_append_right _ (mem_singleton_self _))

/-- The requests of a candidacy are in its epoch. -/
theorem Elected.solicit {candidacy : Candidacy} (hcandidacy : s.candidacy name = some candidacy) :
    Elected config initial (s.solicit name candidacy) := by
  have hcounted := h.counted hcandidacy
  have hasked := h.candidacy name
    (some { candidacy with durableLsn := some (s.log name).length }) (by
      rintro c hc
      cases hc
      exact hcounted)
  refine { hasked with
    asked := forall_mem_append.mpr ⟨h.asked, forall_mem_singleton.mpr hcounted.1⟩
    handled := fun handler hhandler => ?_ }
  obtain ⟨hvoter, hrequest, hgranted⟩ := h.handled handler hhandler
  exact ⟨hvoter, mem_append_left _ hrequest, hgranted⟩

/-- The handlers in flight are old ones, or new ones of their kind. -/
theorem Elected.handle (handlers : List Handler)
    (hhandled : ∀ handler ∈ handlers, handler ∈ s.handlers ∨
      (handler.voter ∈ config.names ∧ handler.request ∈ s.requests ∧
        (handler.granted = some true → handler.grant ∈ s.grants))) :
    Elected config initial { s with handlers := handlers } :=
  { h with handled := fun handler hhandler => (hhandled handler hhandler).elim (h.handled _) id }

/-- A vote is decided once in each epoch. -/
theorem Elected.vote {handler : Handler} (hhandler : handler ∈ s.handlers)
    (hseen : handler.request.epoch ≤ (s.failover handler.voter).epoch) :
    Elected config initial (s.vote handler) := by
  obtain ⟨hmember, hrequest, -⟩ := h.handled handler hhandler
  rcases (s.failover handler.voter).decideVote_cases handler.request.epoch
    handler.request.durableLsn handler.ownLsn with hverdict | ⟨hnew, -, hverdict⟩
  · have hsame := h.advance handler.voter (s.failover handler.voter) s.deposing (fun _ _ => rfl)
      le_rfl (h.believed _) (fun hprimary hidle => h.leads _ ⟨hprimary, hidle⟩)
    rw [Cluster.vote, hverdict]
    exact { hsame.handle (s.handlers.erase handler ++ [{ handler with granted := some false }])
      (forall_mem_append.mpr ⟨fun other hother => .inl (mem_of_mem_erase hother),
        forall_mem_singleton.mpr (.inr ⟨hmember, hrequest, by rintro ⟨⟩⟩)⟩) with }
  · have hgranted := h.grant { s.failover handler.voter with
        epochs := (s.failover handler.voter).epochs.advance handler.request.epoch true }
      handler.request.candidate hmember (h.asked _ hrequest) hnew
      (max_eq_right (le_of_lt hnew)) (le_max_right _ _) (fun hprimary hidle => by
        show Leads config initial s.grants (max (s.failover handler.voter).epoch _) _
        rw [max_eq_left hseen]
        exact h.leads _ ⟨hprimary, hidle⟩)
    rw [Cluster.vote, hverdict]
    refine { hgranted.handle (s.handlers.erase handler ++ [{ handler with granted := some true }])
      (forall_mem_append.mpr ⟨fun other hother => .inl (mem_of_mem_erase hother),
        forall_mem_singleton.mpr (.inr ⟨hmember, hrequest, fun _ => ?_⟩)⟩) with }
    exact mem_append_right _ (mem_singleton_self _)

/-- A granted vote that is answered was granted. -/
theorem Elected.respond {handler : Handler} {granted : Bool} (hhandler : handler ∈ s.handlers)
    (hgranted : handler.granted = some granted) :
    Elected config initial (s.respond handler granted) := by
  obtain ⟨-, -, hback⟩ := h.handled handler hhandler
  refine { h.handle _ (fun other hother => .inl (mem_of_mem_erase hother)) with
    backed := forall_mem_append.mpr ⟨h.backed, forall_mem_singleton.mpr (fun hg => ?_)⟩ }
  exact hback (hgranted.trans (congrArg some hg))

/-- A vote that was granted to the candidacy is counted. -/
theorem Elected.count {response : VoteResponse} {candidacy : Candidacy}
    (hresponse : response ∈ s.responses)
    (hcandidacy : s.candidacy response.candidate = some candidacy)
    (hepoch : candidacy.epoch = response.epoch)
    (hvote : response.granted = true ∧ response.voter ∉ candidacy.votes) :
    Elected config initial
      { s with
        candidacy := update s.candidacy response.candidate
          (some { candidacy with votes := candidacy.votes ++ [response.voter] }) } := by
  obtain ⟨hstood, hnodup, hgranted⟩ := h.counted hcandidacy
  refine h.candidacy _ _ (fun c hc => ?_)
  cases hc
  refine ⟨hstood, nodup_append.mpr ⟨hnodup, nodup_singleton _, ?_⟩,
    forall_mem_append.mpr ⟨hgranted, forall_mem_singleton.mpr ?_⟩⟩
  · intro known hknown new hnew
    rw [mem_singleton.mp hnew]
    rintro rfl
    exact hvote.2 hknown
  · show Grant.mk response.voter candidacy.epoch response.candidate ∈ s.grants
    rw [hepoch]
    exact h.backed response hresponse hvote.1

/-- A candidate that is promoted in the epoch of its candidacy leads it. -/
theorem Elected.promote {candidacy : Candidacy} (hcandidacy : s.candidacy name = some candidacy)
    (hvotes : votesNeeded config.members.length ≤ candidacy.votes.length)
    (htimely : (s.failover name).epoch = candidacy.epoch) :
    Elected config initial (s.promote name candidacy) := by
  have hleads := h.leads_of_counted hcandidacy hvotes
  have hpromoted := (h.advance name (s.failover name).promote s.deposing (fun _ _ => rfl) le_rfl
    (h.believed name) (fun _ _ => by
      show Leads config initial s.grants (s.failover name).epoch name
      rw [htimely]
      exact hleads)).candidacy name none nofun
  refine { hpromoted with won := forall_mem_append.mpr ⟨h.won, ?_⟩ }
  exact forall_mem_singleton.mpr hleads

/-- A process that starts as primary is the configured one, before any election. -/
theorem Elected.restart {asPrimary : Bool} (hconfigured : asPrimary = true → name = initial)
    (htimely : asPrimary = true → (s.failover name).epoch = 0) :
    Elected config initial (Cluster.restart config.minAcks s name asPrimary) := by
  have hrestarted := (h.advance name (Failover.new (s.failover name).epochs asPrimary)
    (update s.deposing name 0) (fun other hother => update_of_ne hother _ _) le_rfl
    (h.believed name)
    (fun hprimary _ => by
      cases asPrimary with
      | false => cases hprimary
      | true => exact .inl ⟨htimely rfl, hconfigured rfl⟩)).candidacy name none nofun
  exact { hrestarted.handle _ (fun handler hhandler => .inl (mem_of_mem_filter hhandler)) with }

/-- **STEP**: an event that is timely keeps the votes and the leaders in order. -/
theorem Elected.step {t : Cluster R} {event : Event R} (htimely : Timely s event)
    (hstep : Step config initial s event t) :
    Elected config initial t := by
  cases hstep.move with
  | queue | write | sync | quorum | prune | ignore | join | register | beat | quit | cut | compare
  | skip | apply | fill | acknowledge | deliver | hangUp | drop => exact { h with }
  | answer => exact { h.acts htimely with }
  | restart hconfigured => exact h.restart hconfigured htimely
  | stand hmember hrole => exact h.stand hmember hrole
  | solicit hcandidacy => exact h.solicit hcandidacy
  | ask hmember hrequest =>
    exact h.handle _ (forall_mem_append.mpr ⟨fun _ hhandler => .inl hhandler,
      forall_mem_singleton.mpr (.inr ⟨hmember, hrequest, nofun⟩)⟩)
  | @observe member epoch => exact h.observe member epoch
  | @demote member =>
    exact h.advance member _ _ (fun other hother => update_of_ne hother _ _) le_rfl
      (h.believed member) nofun
  | vote hhandler hseen => exact h.vote hhandler hseen
  | respond hhandler hgranted => exact h.respond hhandler hgranted
  | count hresponse hcandidacy hepoch hvote => exact h.count hresponse hcandidacy hepoch hvote
  | yield | giveUp => exact h.candidacy _ none nofun
  | promote hcandidacy hvotes => exact h.promote hcandidacy hvotes (htimely _ hcandidacy)
  | @stepDown member =>
    exact h.advance member _ s.deposing (fun _ _ => rfl) le_rfl (h.believed member) nofun
  | announce hst | send hst => exact { h.acts (htimely _ hst) with }
  | @accept replica _ epoch => exact { h.observe replica epoch with }

end

theorem Started.elected (h : Started config initial s) :
    Elected config initial s := by
  refine ⟨?_, ?_, ?_, ?_, ?_, ?_, ?_, ?_, ?_, ?_, ?_⟩
  · intro name
    rw [Failover.epoch, h.epochs name]
  · simp [h.grants]
  · simp [h.grants]
  · simp [h.grants]
  · simp [h.requests]
  · simp [h.handlers]
  · simp [h.responses]
  · intro name candidacy hcandidacy
    rw [h.candidacies name] at hcandidacy
    cases hcandidacy
  · rintro name ⟨hprimary, -⟩
    refine .inl ⟨?_, h.roles name hprimary⟩
    rw [Failover.epoch, h.epochs name]
  · simp [h.won]
  · simp [h.acted]

/-- **ONE LEADER**: two members that acted as primary in one epoch are the same member. -/
theorem one_leader_per_epoch {start s : Cluster R} {events : List (Event R)}
    (hstart : Started config initial start)
    (hrun : Run (Step config initial) Timely start events s) {epoch : Nat}
    {one other : String} (hone : (epoch, one) ∈ s.acted) (hother : (epoch, other) ∈ s.acted) :
    one = other := by
  have h : Elected config initial s :=
    hrun.invariant (fun h htimely hstep => h.step htimely hstep) hstart.elected
  exact h.leads_unique (h.led _ hone) (h.led _ hother)

/-- A voter handles a request: it reads its LSN, stores the epoch, demotes, decides and answers,
    and the candidate takes the answer. -/
def ballot (voter : String) (request : VoteRequest) (ownLsn : Nat) (granted : Bool) :
    List (Event Nat) :=
  [.ask voter request, .observe voter request.epoch, .demote voter,
    .vote ⟨voter, request, ownLsn, none⟩, .respond ⟨voter, request, ownLsn, some granted⟩,
    .count request.candidate ⟨voter, request.candidate, request.epoch, granted, request.epoch⟩]

/-- `b` stands, `a` votes for it, and `b` is promoted. -/
def electB : List (Event Nat) :=
  [.stand "b", .solicit "b"] ++ ballot "a" ⟨"b", 1, 0⟩ 0 true ++ [.promote "b"]

/-- `b` is elected and streams to `c`: it is the one leader of epoch 1. -/
theorem one_leader_per_epoch_elected :
    ∃ s, Run (Step trio "a") Timely (fresh Nat trio "a")
        (electB ++ [.join "c" "b", .announce 0]) s ∧
      (1, "b") ∈ s.acted ∧ ∀ name, (1, name) ∈ s.acted → name = "b" := by
  refine exists_run_of (act trio "a") id (p := fun s => (1, "b") ∈ s.acted)
    (by decide +kernel) (fun s hrun hb => ⟨hb, fun name hname => ?_⟩)
  exact one_leader_per_epoch (fresh_started (by decide)) hrun hname hb

/-- **TWO LEADERS**: `a`, the configured primary, votes for `b`, which leads epoch 1 and streams
    to `c`; `a` restarts, is primary again over the persisted epoch 1, and streams to `c` too. -/
theorem two_leaders_of_one_epoch :
    ∃ s, Run (Step trio "a") (fun _ _ => True) (fresh Nat trio "a")
        (electB ++ [.join "c" "b", .announce 0, .restart "a" true, .hangUp "c", .join "c" "a",
          .announce 1]) s ∧
      (1, "a") ∈ s.acted ∧ (1, "b") ∈ s.acted :=
  exists_run (act trio "a") id (by decide +kernel)

end Cluster

end Vyrn
