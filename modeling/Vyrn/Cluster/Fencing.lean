import Vyrn.Cluster.Election

/-!
# Epoch fencing

Record frames carry no epoch. What keeps a deposed primary's records out is the epoch frame in
front of them, whose epochs never go back in one stream, and that fails when the follower's epoch
moves on another connection meanwhile. `Detached` asks that a member stores a higher epoch only
while it follows no stream. **`epoch_fencing`** is the result over every run that is `Timely` as
well; in **`applies_after_voting`** a follower votes for the next epoch and applies the old
primary's record afterwards.
-/

namespace Vyrn

namespace Cluster

open Function (update update_of_ne update_self forall_update_iff)
open List Transition

variable {R : Type} {config : Membership} {initial : String} {epoch id : Nat} {replica : String}

/-- The condition on an event that raises a member's epoch away from a stream. -/
@[reducible] def Detached (s : Cluster R) : Event R → Prop
  | .stand member => s.upstream member = none
  | .observe member epoch => epoch ≤ (s.failover member).epoch ∨ s.upstream member = none
  | _ => True

instance (s : Cluster R) (event : Event R) : Decidable (Detached s event) := by
  apply @Event.casesOn _ _ event <;> intros <;> infer_instance

@[reducible] def Guarded (s : Cluster R) (event : Event R) : Prop :=
  Timely s event ∧ Detached s event

/-- The epoch has had a leader. -/
def Ruled (won : List (Nat × String)) (epoch : Nat) : Prop :=
  epoch = 0 ∨ ∃ name, (epoch, name) ∈ won

/-- Where a follower stands on its stream: nothing was sent yet, the next frame is an epoch, which
    it may have compared with its own, or it is at an epoch that nothing on the stream is below. -/
def Follows (s : Cluster R) (name : String) (st : Stream R) : Prop :=
  (st.phase = .joined ∧ st.frames = [] ∧ ¬ s.compared name = true) ∨
    (∃ epoch rest, st.frames = .primaryEpoch epoch :: rest ∧
      (s.compared name = true → (s.failover name).epoch ≤ epoch)) ∨
    ((s.failover name).epoch ≤ s.term st.primary ∧
      (∀ frame ∈ st.frames, (s.failover name).epoch ≤ frame.tag) ∧
      Ruled s.won (s.failover name).epoch)

/-- Primaries lead at their term, the frames of a stream never go back in epoch, and a follower is
    never past the record it applies or still has to acknowledge. -/
structure Fenced (s : Cluster R) : Prop where
  terms : ∀ name, s.term name ≤ (s.failover name).epoch
  rules : ∀ name, Rules s name →
    (s.failover name).epoch = s.term name ∧ Ruled s.won (s.failover name).epoch
  sorted : ∀ st ∈ s.streams, (st.frames.map Frame.tag).Pairwise (· ≤ ·)
  sent : ∀ st ∈ s.streams, ∀ frame ∈ st.frames, frame.tag ≤ s.term st.primary ∧
    ∀ epoch, frame = .primaryEpoch epoch → Ruled s.won epoch
  follows : ∀ {name : String} {id : Nat} {st : Stream R}, s.upstream name = some id →
    s.streams[id]? = some st → Follows s name st
  owes : ∀ {name : String} {lsn term : Nat}, s.owed name = some (lsn, term) →
    s.upstream name ≠ none ∧ (s.failover name).epoch ≤ term ∧
      Ruled s.won (s.failover name).epoch

/-! ## Steps -/

theorem Ruled.mono {won more : List (Nat × String)} (h : Ruled won epoch)
    (hmore : ∀ w ∈ won, w ∈ more) : Ruled more epoch :=
  h.imp id (fun ⟨name, hname⟩ => ⟨name, hmore _ hname⟩)

variable {s t : Cluster R} {st : Stream R} {rest : List (Frame R)} {lsn term : Nat} {name : String}
  {event : Event R} {bytes : R}

/-- The member stays where it is, and the primaries may move on. -/
theorem Follows.keep (h : Follows s name st)
    (hepoch : (t.failover name).epoch = (s.failover name).epoch)
    (hcompared : t.compared name = true → s.compared name = true)
    (hterm : s.term st.primary ≤ t.term st.primary) (hwon : ∀ w ∈ s.won, w ∈ t.won) :
    Follows t name st := by
  rw [Follows, hepoch]
  rcases h with ⟨hphase, hnone, hidle⟩ | ⟨epoch, rest, hhead, hle⟩ | ⟨hbelow, htags, hruled⟩
  · exact .inl ⟨hphase, hnone, fun hc => hidle (hcompared hc)⟩
  · exact .inr (.inl ⟨epoch, rest, hhead, fun hc => hle (hcompared hc)⟩)
  · exact .inr (.inr ⟨hbelow.trans hterm, htags, hruled.mono hwon⟩)

section

variable (h : Fenced s)
include h

/-- A member's failover state changes: its epoch stays, or it follows no stream. -/
theorem Fenced.adopt (name : String) (after : Failover) (deposing : String → Nat)
    (hothers : ∀ other, other ≠ name → deposing other = s.deposing other)
    (hepoch : (s.failover name).epoch ≤ after.epoch)
    (hrole : after.role = .primary → deposing name = 0 →
      after.epoch = s.term name ∧ Ruled s.won after.epoch)
    (hfree : after.epoch ≤ (s.failover name).epoch ∨ s.upstream name = none) :
    Fenced { s with failover := update s.failover name after, deposing := deposing } := by
  have hsame : ∀ {other : String}, s.upstream other ≠ none →
      (update s.failover name after other).epoch = (s.failover other).epoch := by
    intro other hup
    by_cases hother : other = name
    · rw [hother, update_self]
      rcases hfree with hfree | hfree
      · exact le_antisymm hfree hepoch
      · rw [hother] at hup
        exact absurd hfree hup
    · rw [update_of_ne hother]
  refine ⟨?_, ?_, h.sorted, h.sent, ?_, ?_⟩
  · exact forall_update s.failover (fun other failover => s.term other ≤ failover.epoch)
      ((h.terms name).trans hepoch) h.terms
  · rintro other ⟨hprimary, hidle⟩
    refine (forall_update_iff s.failover (fun other failover => failover.role = .primary →
      deposing other = 0 → failover.epoch = s.term other ∧ Ruled s.won failover.epoch)).mpr
      ⟨hrole, fun other hother hprimary hidle => ?_⟩ other hprimary hidle
    rw [hothers other hother] at hidle
    exact h.rules other ⟨hprimary, hidle⟩
  · intro other id st hup hst
    exact (h.follows hup hst).keep (hsame (Option.ne_none_iff_exists'.mpr ⟨id, hup⟩))
      (fun hc => hc) le_rfl (fun _ hw => hw)
  · intro other lsn term howed
    obtain ⟨hup, hterm, hruled⟩ := h.owes howed
    show s.upstream other ≠ none ∧ (update s.failover name after other).epoch ≤ term ∧
      Ruled s.won (update s.failover name after other).epoch
    rw [hsame hup]
    exact ⟨hup, hterm, hruled⟩

section

variable (hst : s.streams[id]? = some st)
include hst

/-- A stream's own fields change. -/
theorem Fenced.stream (after : Stream R) (hsorted : (after.frames.map Frame.tag).Pairwise (· ≤ ·))
    (hsent : ∀ frame ∈ after.frames, frame.tag ≤ s.term after.primary ∧
      ∀ epoch, frame = .primaryEpoch epoch → Ruled s.won epoch)
    (hfollows : ∀ {name : String}, s.upstream name = some id → Follows s name st →
      Follows s name after) : Fenced { s with streams := s.streams.set id after } := by
  refine ⟨h.terms, h.rules, forall_mem_set h.sorted hsorted, forall_mem_set h.sent hsent, ?_,
    h.owes⟩
  intro name id' st' hup hst'
  have hst' : (s.streams.set id after)[id']? = some st' := hst'
  by_cases hid : id = id'
  · subst hid
    rw [getElem?_set_self (List.getElem?_eq_some_iff.mp hst).1] at hst'
    rw [← Option.some.inj hst']
    exact hfollows hup (h.follows hup hst)
  · rw [getElem?_set_ne hid] at hst'
    exact h.follows hup hst'

/-- The sender's own epoch goes behind everything it sent. -/
theorem Fenced.push (after : Stream R) (frame : Frame R) (hprimary : after.primary = st.primary)
    (hframes : after.frames = st.frames ++ [frame]) (htag : frame.tag = s.term st.primary)
    (hruled : ∀ epoch, frame = .primaryEpoch epoch → Ruled s.won epoch)
    (hfirst : st.phase ≠ .joined ∨ ∃ epoch, frame = .primaryEpoch epoch) :
    Fenced { s with streams := s.streams.set id after } := by
  have hmem := mem_of_getElem? hst
  refine h.stream hst after ?_ ?_ ?_
  · rw [hframes, map_append]
    refine pairwise_append.mpr ⟨h.sorted st hmem, pairwise_singleton _ _, ?_⟩
    intro tag htags last hlast
    obtain ⟨old, hold, rfl⟩ := mem_map.mp htags
    rw [mem_singleton.mp hlast]
    show old.tag ≤ frame.tag
    rw [htag]
    exact (h.sent st hmem old hold).1
  · rw [hframes, hprimary]
    exact forall_mem_append.mpr ⟨h.sent st hmem, forall_mem_singleton.mpr ⟨le_of_eq htag, hruled⟩⟩
  · intro name hup hfollows
    rw [Follows, hframes, hprimary]
    rcases hfollows with ⟨hsilent, hnone, hidle⟩ | ⟨epoch, rest, hhead, hle⟩ |
      ⟨hterm, htags, hruled⟩
    · rcases hfirst with hfirst | ⟨epoch, rfl⟩
      · exact absurd hsilent hfirst
      · rw [hnone]
        exact .inr (.inl ⟨epoch, [], rfl, fun hc => absurd hc hidle⟩)
    · rw [hhead]
      exact .inr (.inl ⟨epoch, rest ++ [frame], rfl, hle⟩)
    · exact .inr (.inr ⟨hterm, forall_mem_append.mpr
        ⟨htags, forall_mem_singleton.mpr (hterm.trans htag.ge)⟩, hruled⟩)

/-- Fields of a stream that say nothing about its frames. -/
theorem Fenced.idle (after : Stream R) (hprimary : after.primary = st.primary)
    (hframes : after.frames = st.frames) (hphase : st.phase = .joined → after.phase = .joined) :
    Fenced { s with streams := s.streams.set id after } := by
  have hmem := mem_of_getElem? hst
  refine h.stream hst after ?_ ?_ ?_
  · rw [hframes]
    exact h.sorted st hmem
  · rw [hframes, hprimary]
    exact h.sent st hmem
  · intro name hup hfollows
    rw [Follows, hframes, hprimary]
    exact hfollows.imp_left (fun hsilent => ⟨hphase hsilent.1, hsilent.2⟩)

end

/-- A member that drops its debt may change its stream. -/
theorem Fenced.drops {up : Option Nat}
    (howed : update s.owed replica none name = some (lsn, term)) :
    update s.upstream replica up name ≠ none ∧ (s.failover name).epoch ≤ term ∧
      Ruled s.won (s.failover name).epoch := by
  obtain ⟨hname, howed⟩ := update_none howed
  rw [update_of_ne hname]
  exact h.owes howed

theorem Fenced.hangUp (replica : String) : Fenced (s.hangUp replica) := by
  refine { h with follows := fun hup hst => ?_, owes := h.drops }
  obtain ⟨hname, hup⟩ := update_none hup
  exact (h.follows hup hst).keep rfl (fun hc => (update_of_ne hname _ _).symm.trans hc) le_rfl
    (fun _ hw => hw)

/-- A new stream has nothing on it. -/
theorem Fenced.open {primary : String} {first : Nat} (hwired : Wired config s) :
    Fenced (s.openStream replica primary first) := by
  refine ⟨h.terms, h.rules, ?_, ?_, ?_, h.drops⟩
  · exact forall_mem_append.mpr ⟨h.sorted, forall_mem_singleton.mpr .nil⟩
  · exact forall_mem_append.mpr ⟨h.sent, forall_mem_singleton.mpr nofun⟩
  · intro name id st hup hst
    rcases upstream_open hwired hup with ⟨rfl, hnew⟩ | ⟨hname, hold, hsame⟩
    · rw [← Option.some.inj (hnew.symm.trans hst)]
      refine .inl ⟨rfl, rfl, ?_⟩
      show ¬ update s.compared name false name = true
      rw [update_self]
      exact Bool.false_ne_true
    · exact (h.follows hold (hsame.symm.trans hst)).keep rfl
        (fun hc => (update_of_ne hname _ _).symm.trans hc) le_rfl (fun _ hw => hw)

omit h in
theorem promote_epoch (s : Cluster R) (name : String) (candidacy : Candidacy) :
    ∀ other, ((s.promote name candidacy).failover other).epoch = (s.failover other).epoch :=
  forall_update s.failover (fun other failover => failover.epoch = (s.failover other).epoch) rfl
    (fun _ => rfl)

/-- One who is promoted leads at the stored epoch. -/
theorem Fenced.promote {candidacy : Candidacy}
    (htimely : (s.failover name).epoch = candidacy.epoch) : Fenced (s.promote name candidacy) := by
  have hmore : ∀ w ∈ s.won, w ∈ s.won ++ [(candidacy.epoch, name)] :=
    fun w hw => mem_append_left _ hw
  have hepoch := promote_epoch s name candidacy
  have hterm : ∀ other, s.term other ≤ (s.promote name candidacy).term other :=
    forall_update s.term (fun other term => s.term other ≤ term) (htimely ▸ h.terms name)
      (fun _ => le_rfl)
  refine ⟨?_, ?_, h.sorted, ?_, ?_, ?_⟩
  · intro other
    rw [hepoch]
    exact forall_update s.term (fun other term => term ≤ (s.failover other).epoch) htimely.ge
      h.terms other
  · rintro other ⟨hprimary, hidle⟩
    rw [hepoch]
    show _ = update s.term name candidacy.epoch other ∧ Ruled (s.won ++ [_]) _
    by_cases hother : other = name
    · rw [hother, update_self, htimely]
      exact ⟨rfl, .inr ⟨name, mem_append_right _ (mem_singleton_self _)⟩⟩
    · rw [update_of_ne hother]
      have hprimary : (update s.failover name (s.failover name).promote other).role = .primary :=
        hprimary
      rw [update_of_ne hother] at hprimary
      obtain ⟨hsame, hruled⟩ := h.rules other ⟨hprimary, hidle⟩
      exact ⟨hsame, hruled.mono hmore⟩
  · intro st hst frame hframe
    obtain ⟨htag, hruled⟩ := h.sent st hst frame hframe
    exact ⟨htag.trans (hterm _), fun epoch hepoch => (hruled epoch hepoch).mono hmore⟩
  · intro other id st hup hst
    exact (h.follows hup hst).keep (hepoch other) (fun hc => hc) (hterm _) hmore
  · intro other lsn term howed
    obtain ⟨hup, hbelow, hruled⟩ := h.owes howed
    rw [hepoch]
    exact ⟨hup, hbelow, hruled.mono hmore⟩

/-- A restart gives the streams up; a primary comes up in epoch 0 only. -/
theorem Fenced.restart {member : String} {asPrimary : Bool} {minAcks : Nat}
    (htimely : asPrimary = true → (s.failover member).epoch = 0) :
    Fenced (Cluster.restart minAcks s member asPrimary) := by
  -- a configured primary that may start has never led a later epoch
  have hterm : update s.term member (if asPrimary then 0 else s.term member) = s.term := by
    cases asPrimary with
    | false => exact Function.update_eq_self member s.term
    | true =>
      have hzero : s.term member = 0 :=
        Nat.le_zero.mp ((h.terms member).trans (Nat.le_of_eq (htimely rfl)))
      rw [if_pos rfl, ← hzero]
      exact Function.update_eq_self member s.term
  have hadopted := h.adopt member (Failover.new (s.failover member).epochs asPrimary)
    (update s.deposing member 0) (fun other hother => update_of_ne hother _ _) le_rfl
    (fun hprimary _ => by
      cases asPrimary with
      | false => cases hprimary
      | true =>
        have hzero : (s.failover member).epochs.current = 0 := htimely rfl
        have hbelow := h.terms member
        rw [Failover.epoch, hzero] at hbelow
        rw [Nat.le_zero.mp hbelow]
        exact ⟨hzero, .inl hzero⟩) (.inl le_rfl)
  refine ⟨?_, ?_, ?_, ?_, ?_, hadopted.drops⟩
  · show ∀ name, update s.term member _ name ≤ _
    rw [hterm]
    exact hadopted.terms
  · show ∀ name, _ → _ = update s.term member _ name ∧ _
    rw [hterm]
    exact hadopted.rules
  · intro st hst
    obtain ⟨old, hold, -, -, hframes, -⟩ := mem_closeStreamsOf hst
    rw [hframes]
    exact h.sorted old hold
  · intro st hst
    obtain ⟨old, hold, hprimary, -, hframes, -⟩ := mem_closeStreamsOf hst
    show ∀ frame ∈ st.frames, frame.tag ≤ update s.term member _ st.primary ∧ _
    rw [hterm, hframes, hprimary]
    exact h.sent old hold
  · intro name id st hup hst
    obtain ⟨old, hold, hprimary, -, hphase, hframes⟩ := getElem?_closeStreamsOf hst
    obtain ⟨hname, hup⟩ := update_none hup
    have hfollows := hadopted.follows hup hold
    rw [Follows] at hfollows ⊢
    show (_ ∧ _ ∧ ¬ update s.compared member false name = true) ∨
      (∃ _ _, _ ∧ (update s.compared member false name = true → _)) ∨
      (_ ≤ update s.term member _ st.primary ∧ _)
    rw [hterm, hframes, hprimary, hphase, update_of_ne hname]
    exact hfollows

/-- Taking a frame off the stream a follower is already level with. -/
theorem Fenced.consume (hst : s.streams[id]? = some st)
    (hframes : st.frames = .record lsn bytes term :: rest) :
    Fenced { s with streams := s.streams.set id { st with frames := rest } } := by
  have hmem := mem_of_getElem? hst
  have hsorted := h.sorted st hmem
  have hsent := h.sent st hmem
  rw [hframes] at hsorted hsent
  refine h.stream hst { st with frames := rest } (Pairwise.of_cons hsorted)
    (fun frame hframe => hsent frame (mem_cons_of_mem _ hframe)) ?_
  rintro name - (⟨-, hnone, -⟩ | ⟨epoch, tail, hhead, -⟩ | ⟨hterm, htags, hruled⟩)
  · cases hframes.symm.trans hnone
  · cases hframes.symm.trans hhead
  · refine .inr (.inr ⟨hterm, fun frame hframe => htags frame ?_, hruled⟩)
    rw [hframes]
    exact mem_cons_of_mem _ hframe

/-- The fence itself: a follower that accepts an epoch is level with the rest of its stream. -/
theorem Fenced.accept (hwired : Wired config s) (hup : s.upstream replica = some id)
    (hst : s.streams[id]? = some st) (howed : s.owed replica = none)
    (hcompared : s.compared replica = true) (hframes : st.frames = .primaryEpoch epoch :: rest) :
    Fenced (s.accept replica id st rest epoch) := by
  have hmem := mem_of_getElem? hst
  have hsorted := h.sorted st hmem
  have hsent := h.sent st hmem
  rw [hframes] at hsorted hsent
  have hepoch : (s.failover replica).epoch ≤ epoch := by
    rcases h.follows hup hst with ⟨-, hnone, -⟩ | ⟨_, _, hhead, hle⟩ | ⟨-, htags, -⟩
    · cases hframes.symm.trans hnone
    · cases hframes.symm.trans hhead
      exact hle hcompared
    · exact htags (.primaryEpoch epoch) (by rw [hframes]; exact mem_cons_self)
  have hafter : ((s.failover replica).adopt epoch).epoch = epoch := Nat.max_eq_right hepoch
  refine ⟨?_, ?_, forall_mem_set h.sorted (Pairwise.of_cons hsorted), ?_, ?_, ?_⟩
  · refine forall_update s.failover (fun name failover => s.term name ≤ failover.epoch) ?_ h.terms
    rw [hafter]
    exact (h.terms replica).trans hepoch
  · rintro name ⟨hprimary, hidle⟩
    have hidle : update s.deposing replica (s.deposing replica + 1) name = 0 := hidle
    -- the follower itself is about to be demoted
    have hname : name ≠ replica := by
      rintro rfl
      rw [update_self] at hidle
      exact Nat.succ_ne_zero _ hidle
    have hsame : (s.accept replica id st rest epoch).failover name = s.failover name :=
      update_of_ne hname _ _
    rw [hsame] at hprimary ⊢
    rw [update_of_ne hname] at hidle
    exact h.rules name ⟨hprimary, hidle⟩
  · exact forall_mem_set h.sent (fun frame hframe => hsent frame (mem_cons_of_mem _ hframe))
  · intro name id' st' hup' hst'
    have hst' : (s.streams.set id { st with frames := rest })[id']? = some st' := hst'
    by_cases hname : name = replica
    · rw [hname] at hup' ⊢
      cases hup.symm.trans hup'
      rw [getElem?_set_self (hwired.below hup)] at hst'
      cases hst'
      refine .inr (.inr ?_)
      show (update s.failover replica _ replica).epoch ≤ s.term st.primary ∧
        (∀ frame ∈ rest, (update s.failover replica _ replica).epoch ≤ frame.tag) ∧
        Ruled s.won (update s.failover replica _ replica).epoch
      rw [update_self, hafter]
      obtain ⟨hterm, hruled⟩ := hsent _ mem_cons_self
      refine ⟨hterm, fun frame hframe => ?_, hruled epoch rfl⟩
      exact rel_of_pairwise_cons hsorted (mem_map_of_mem hframe)
    · have hother : id ≠ id' := by
        rintro rfl
        have hsame := getElem?_eq_getElem (hwired.below hup)
        exact hname ((hwired.taken hup' hsame).symm.trans (hwired.taken hup hsame))
      rw [getElem?_set_ne hother] at hst'
      exact (h.follows hup' hst').keep (congrArg Failover.epoch (update_of_ne hname _ _))
        (fun hc => (update_of_ne hname _ _).symm.trans hc) le_rfl (fun _ hw => hw)
  · intro name lsn term howed'
    have howed' : s.owed name = some (lsn, term) := howed'
    have hname : name ≠ replica := by
      rintro rfl
      cases howed.symm.trans howed'
    show s.upstream name ≠ none ∧ (update s.failover replica _ name).epoch ≤ term ∧
      Ruled s.won (update s.failover replica _ name).epoch
    rw [update_of_ne hname]
    exact h.owes howed'

/-- The fence is passed: the next frame is an epoch that is not below the follower's. -/
theorem Fenced.compare (hup : s.upstream replica = some id)
    (hst : s.streams[id]? = some st) (hframes : st.frames = .primaryEpoch epoch :: rest)
    (hepoch : (s.failover replica).epoch ≤ epoch) :
    Fenced { s with compared := update s.compared replica true } := by
  refine { h with follows := fun {name id' st'} hup' hst' => ?_ }
  have hup' : s.upstream name = some id' := hup'
  by_cases hname : name = replica
  · rw [hname] at hup' ⊢
    cases hup.symm.trans hup'
    cases hst.symm.trans hst'
    exact .inr (.inl ⟨epoch, rest, hframes, fun _ => hepoch⟩)
  · exact (h.follows hup' hst').keep rfl (fun hc => (update_of_ne hname _ _).symm.trans hc) le_rfl
      (fun _ hw => hw)

/-- A follower whose next frame is a record is not past the epoch it was sent in. -/
theorem Fenced.level (hup : s.upstream replica = some id) (hst : s.streams[id]? = some st)
    (hframes : st.frames = .record lsn bytes term :: rest) :
    (s.failover replica).epoch ≤ term ∧ Ruled s.won (s.failover replica).epoch := by
  rcases h.follows hup hst with ⟨-, hnone, -⟩ | ⟨epoch, tail, hhead, -⟩ | ⟨-, htags, hruled⟩
  · cases hframes.symm.trans hnone
  · cases hframes.symm.trans hhead
  · exact ⟨htags (.record lsn bytes term) (by rw [hframes]; exact mem_cons_self), hruled⟩

/-- The debt of one member changes. -/
theorem Fenced.owe (name : String) (debt : Option (Nat × Nat))
    (hdebt : ∀ lsn term, debt = some (lsn, term) → s.upstream name ≠ none ∧
      (s.failover name).epoch ≤ term ∧ Ruled s.won (s.failover name).epoch) :
    Fenced { s with owed := update s.owed name debt } := by
  have hall := forall_update s.owed (fun other debt => ∀ lsn term, debt = some (lsn, term) →
    s.upstream other ≠ none ∧ (s.failover other).epoch ≤ term ∧
      Ruled s.won (s.failover other).epoch) hdebt (fun _ _ _ howed => h.owes howed)
  exact { h with owes := fun {other lsn term} => hall other lsn term }

/-- **STEP**: a guarded event keeps every follower behind its fence. -/
theorem Fenced.step (hwired : Wired config s) (hguarded : Guarded s event)
    (hstep : Step config initial s event t) : Fenced t := by
  obtain ⟨htimely, hdetached⟩ := hguarded
  cases hstep.move with
  | queue | write | sync | quorum | answer | prune | solicit | ask | respond | yield | count
  | ignore | giveUp | fill => exact { h with }
  | restart => exact h.restart htimely
  | @stand member _ hrole =>
    exact { h.adopt member _ s.deposing (fun _ _ => rfl)
      ((Nat.le_succ _).trans (Failover.stand_epoch _).ge)
      (fun hprimary => by cases hrole.symm.trans hprimary) (.inr hdetached) with }
  | @observe member =>
    refine h.adopt member _ _ (fun other hother => update_of_ne hother _ _) (le_max_left _ _)
      (fun _ hidle => ?_) (hdetached.imp (fun hle => Nat.max_le.mpr ⟨le_rfl, hle⟩) id)
    rw [update_self] at hidle
    exact absurd hidle (Nat.succ_ne_zero _)
  | @demote member =>
    exact h.adopt member _ _ (fun other hother => update_of_ne hother _ _) le_rfl nofun
      (.inl le_rfl)
  | @vote handler _ hseen =>
    obtain ⟨hepoch, hrole⟩ := @Failover.decideVote_same _ handler.request.durableLsn
      handler.ownLsn _ hseen
    refine { h.adopt handler.voter _ s.deposing (fun _ _ => rfl) hepoch.ge
      (fun hprimary hidle => ?_) (.inl hepoch.le) with }
    rw [hepoch]
    exact h.rules _ ⟨hrole.symm.trans hprimary, hidle⟩
  | promote hcandidacy => exact h.promote (htimely _ hcandidacy)
  | @stepDown member =>
    exact h.adopt member _ s.deposing (fun _ _ => rfl) le_rfl nofun (.inl le_rfl)
  | join => exact h.open hwired
  | @announce _ st hst =>
    obtain ⟨hterm, hruled⟩ := h.rules st.primary (htimely st hst)
    refine { h.push hst { st with phase := _, frames := st.frames ++ [_] }
      (.primaryEpoch (s.failover st.primary).epoch) rfl rfl hterm (fun epoch hepoch => ?_)
      (.inr ⟨_, rfl⟩) with }
    cases hepoch
    exact hruled
  | @send _ lsn st record hst _ hphase =>
    exact { h.push hst { st with next := lsn + 1, frames := st.frames ++ [_] }
      (.record lsn record (s.term st.primary)) rfl rfl rfl (by rintro _ ⟨⟩) (.inl hphase) with }
  | @register _ st hst hphase =>
    exact { h.idle hst { st with phase := .live, slot := _ } rfl rfl
      (fun hc => by cases hphase.symm.trans hc) with }
  | @beat _ st hst _ hphase =>
    exact h.idle hst { st with phase := .beating } rfl rfl (fun hc => by cases hphase.symm.trans hc)
  | compare hup hst hframes hepoch => exact h.compare hup hst hframes hepoch
  | skip hst hframes => exact h.consume hst hframes
  | @apply replica id lsn term _ _ _ hup hst hframes =>
    refine { (h.consume hst hframes).owe replica (some (lsn, term)) ?_ with }
    rintro lsn' term' hdebt
    cases hdebt
    exact ⟨Option.ne_none_iff_exists'.mpr ⟨id, hup⟩, h.level hup hst hframes⟩
  | accept hup hst howed hcompared hframes => exact h.accept hwired hup hst howed hcompared hframes
  | @acknowledge replica _ lsn _ st _ hst =>
    exact { (h.idle hst { st with acks := st.acks ++ [lsn] } rfl rfl (fun hc => hc)).owe replica
      none (by rintro _ _ ⟨⟩) with }
  | @deliver _ _ st rest hst =>
    exact { h.idle hst { st with acks := rest } rfl rfl (fun hc => hc) with }
  | hangUp | cut => exact h.hangUp _
  | @drop id st hst | @quit id st hst =>
    exact { h.idle hst { st with alive := false } rfl rfl (fun hc => hc) with }

end

theorem Started.fenced (h : Started config initial s) : Fenced s := by
  have hzero : ∀ name, (s.failover name).epoch = 0 := by
    intro name
    rw [Failover.epoch, h.epochs name]
  refine ⟨?_, ?_, by simp [h.streams], by simp [h.streams], ?_, ?_⟩
  · intro name
    rw [h.terms name]
    exact Nat.zero_le _
  · intro name _
    rw [hzero, h.terms name]
    exact ⟨rfl, .inl rfl⟩
  · intro name id st hup
    rw [h.upstream name] at hup
    cases hup
  · intro name lsn term howed
    rw [h.owed name] at howed
    cases howed

/-! ## Epochs only rise -/

theorem epoch_mono (hstep : Step config initial s event t) (name : String) :
    (s.failover name).epoch ≤ (t.failover name).epoch := by
  have hupdate : ∀ {member : String} {after : Failover}, (s.failover member).epoch ≤ after.epoch →
      (s.failover name).epoch ≤ (update s.failover member after name).epoch :=
    fun hle => forall_update s.failover (fun name failover =>
      (s.failover name).epoch ≤ failover.epoch) hle (fun _ => le_rfl) name
  cases hstep.move with
  | queue | write | sync | quorum | answer | prune | solicit | ask | respond | yield | count
  | ignore | giveUp | join | announce | send | register | beat | quit | cut | compare | skip | apply
  | fill | acknowledge | deliver | hangUp | drop => exact le_rfl
  | restart | promote | stepDown | demote => exact hupdate le_rfl
  | stand => exact hupdate ((Nat.le_succ _).trans (Failover.stand_epoch _).ge)
  | observe | accept => exact hupdate (le_max_left _ _)
  | vote _ hseen => exact hupdate (Failover.decideVote_same hseen).1.ge

/-- **FENCING**: a member that has reached an epoch, or voted in it, has no record of a lower epoch
    next on the stream it applies, and owes no acknowledgement of one, at any later time. -/
theorem epoch_fencing {start s t : Cluster R} {before after : List (Event R)}
    (hstart : Started config initial start)
    (hbefore : Run (Step config initial) Guarded start before s)
    (hafter : Run (Step config initial) Guarded s after t) {name : String} {epoch : Nat}
    (hreached : epoch ≤ (s.failover name).epoch ∨
      ∃ candidate, ⟨name, epoch, candidate⟩ ∈ s.grants) :
    (∀ {id lsn term : Nat} {bytes : R} {st : Stream R} {rest : List (Frame R)},
      t.upstream name = some id → t.streams[id]? = some st →
      st.frames = .record lsn bytes term :: rest → epoch ≤ term) ∧
    ∀ {lsn term : Nat}, t.owed name = some (lsn, term) → epoch ≤ term := by
  obtain ⟨hwired, helected, hfenced⟩ : Wired config s ∧ Elected config initial s ∧ Fenced s := by
    refine hbefore.invariant (I := fun s => Wired config s ∧ Elected config initial s ∧ Fenced s) ?_
      ⟨hstart.wired, hstart.elected, hstart.fenced⟩
    rintro u v event ⟨hwired, helected, hfenced⟩ hguarded hstep
    exact ⟨hwired.step hstep, helected.step hguarded.1 hstep, hfenced.step hwired hguarded hstep⟩
  have hlevel : epoch ≤ (s.failover name).epoch := by
    rcases hreached with hreached | ⟨candidate, hgrant⟩
    · exact hreached
    · exact (helected.remembered _ hgrant).2.trans (helected.believed name)
  obtain ⟨-, hfenced, hlater⟩ : Wired config t ∧ Fenced t ∧ epoch ≤ (t.failover name).epoch := by
    refine hafter.invariant
      (I := fun t => Wired config t ∧ Fenced t ∧ epoch ≤ (t.failover name).epoch) ?_
      ⟨hwired, hfenced, hlevel⟩
    rintro u v event ⟨hwired, hfenced, hlevel⟩ hguarded hstep
    exact ⟨hwired.step hstep, hfenced.step hwired hguarded hstep,
      hlevel.trans (epoch_mono hstep name)⟩
  constructor
  · intro id lsn term bytes st rest hup hst hframes
    exact hlater.trans (hfenced.level hup hst hframes).1
  · intro lsn term howed
    exact hlater.trans (hfenced.owes howed).2.1

/-- `c` follows `b` in epoch 1: the record next on its stream is of that epoch. -/
theorem epoch_fencing_of_elected :
    ∃ s t, Run (Step trio "a") Guarded (fresh Nat trio "a")
        (electB ++ [.join "c" "b", .announce 0, .receive "c", .accept "c", .demote "c"]) s ∧
      Run (Step trio "a") Guarded s [.queue "b" 10, .write "b", .send 0 1] t ∧
      (s.failover "c").epoch = 1 ∧ t.upstream "c" = some 0 ∧
      (t.streams[0]?).map (fun st => st.frames) = some [.record 1 10 1] ∧
      ∀ {id lsn term bytes : Nat} {st : Stream Nat} {rest : List (Frame Nat)},
        t.upstream "c" = some id → t.streams[id]? = some st →
        st.frames = .record lsn bytes term :: rest → 1 ≤ term := by
  refine exists_runs_of (act trio "a") id (p := fun s t =>
    (s.failover "c").epoch = 1 ∧ t.upstream "c" = some 0 ∧
      (t.streams[0]?).map (fun st => st.frames) = some [.record 1 10 1]) (by decide +kernel) ?_
  rintro s t hbefore hafter ⟨hepoch, hup, hframes⟩
  exact ⟨hepoch, hup, hframes, (epoch_fencing (fresh_started (by decide)) hbefore hafter
    (.inl (le_of_eq hepoch.symm))).1⟩

/-- **NOT FENCED**: `b` follows `a`, whose first record is in flight when `c` stands and `b` grants
    it epoch 1; `b` then applies the record and acknowledges it. -/
theorem applies_after_voting :
    ∃ s t, Run (Step trio "a") (fun _ _ => True) (fresh Nat trio "a")
        ([.join "b" "a", .announce 0, .receive "b", .accept "b", .demote "b", .queue "a" 10,
          .write "a", .send 0 1, .stand "c", .solicit "c"] ++ ballot "b" ⟨"c", 1, 0⟩ 0 true) s ∧
      ⟨"b", 1, "c"⟩ ∈ s.grants ∧ (s.failover "b").epoch = 1 ∧ s.log "b" = [] ∧
      (s.streams[0]?).map (fun st => st.frames) = some [.record 1 10 0] ∧
      Run (Step trio "a") (fun _ _ => True) s
        [.receive "b", .sync "b", .acknowledge "b"] t ∧
      t.log "b" = [10] ∧ (t.streams[0]?).map (fun st => st.acks) = some [1] := by
  simp only [exists_and_left]
  refine exists_run_of (act trio "a") (fun h => h) (p := fun s =>
    ⟨"b", 1, "c"⟩ ∈ s.grants ∧ (s.failover "b").epoch = 1 ∧ s.log "b" = [] ∧
      (s.streams[0]?).map (fun st => st.frames) = some [.record 1 10 0] ∧
      (follow (fun _ _ => True) (act trio "a") s
        [.receive "b", .sync "b", .acknowledge "b"]).map (fun t => decide (t.log "b" = [10] ∧
          (t.streams[0]?).map (fun st => st.acks) = some [1])) = some true) (by decide +kernel) ?_
  rintro s - ⟨hgrant, hepoch, hlog, hframes, hlater⟩
  exact ⟨hgrant, hepoch, hlog, hframes, exists_run (act trio "a") (fun h => h) hlater⟩

end Cluster

end Vyrn
