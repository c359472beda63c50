import Mathlib.Logic.Function.Basic
import Mathlib.Tactic.SplitIfs
import Vyrn.Lib.Transition

/-!
# The users file — reloads beside each other

Every authentication compares the stamp of the users file with the one that is loaded, and where
they differ it reads the file and installs what it read. The steps of several calls interleave with
changes of the file. An installation asks only whether its own stamp is the loaded one, so a call
that has read an old version installs it over a newer one. A version of the file stands for its text
and its stamp; `judged` are the versions that authentications and sessions were judged against.

**`judged_forward`**: as long as a call installs only what is still in the file, or what it read
after the last installation of another, no judgement goes back.
-/

namespace Vyrn.Users

open Transition

/-- The version of the loaded users, the stamp of the reload and the count of reloads. -/
structure Loaded where
  users : Nat
  stamp : Option Nat
  generation : Nat

/-- Where an `authenticate` call is. -/
inductive Phase where
  | idle
  | checking (stamp : Nat)
  | reading (stamp : Nat)
  /-- With the count of reloads at the read, which no step uses. -/
  | installing (stamp users since : Nat)
  | judging

/-- The version that a session's permissions are of, and the generation it compares. -/
structure Session where
  users : Nat
  generation : Nat

structure State where
  file : Nat
  loaded : Loaded
  calls : Nat → Phase
  sessions : List Session
  judged : List Nat

inductive Event where
  | edit
  | stat (call : Nat) (fails : Bool)
  | check (call : Nat)
  /-- The file is read and parsed. -/
  | read (call : Nat) (fails : Bool)
  | install (call : Nat)
  | judge (call : Nat)
  | refresh (session : Nat)

def State.move (s : State) (call : Nat) (phase : Phase) : State :=
  { s with calls := Function.update s.calls call phase }

/-- What is loaded now. -/
def State.session (s : State) : Session := ⟨s.loaded.users, s.loaded.generation⟩

def act (s : State) : Event → Option State
  | .edit => some { s with file := s.file + 1 }
  | .stat call fails =>
    match s.calls call with
    | .idle => some (s.move call (if fails then .judging else .checking s.file))
    | _ => none
  | .check call =>
    match s.calls call with
    | .checking stamp =>
      some (s.move call (if s.loaded.stamp = some stamp then .judging else .reading stamp))
    | _ => none
  | .read call fails =>
    match s.calls call with
    | .reading stamp => some (s.move call
        (if fails then .judging else .installing stamp s.file s.loaded.generation))
    | _ => none
  | .install call =>
    match s.calls call with
    | .installing stamp users _ =>
      if s.loaded.stamp = some stamp then some (s.move call .judging)
      else some { s.move call .judging with
        loaded := ⟨users, some stamp, s.loaded.generation + 1⟩ }
    | _ => none
  | .judge call =>
    match s.calls call with
    | .judging => some { s.move call .idle with
        sessions := s.session :: s.sessions
        judged := s.loaded.users :: s.judged }
    | _ => none
  | .refresh index => do
    let session ← s.sessions[index]?
    if session.generation = s.loaded.generation then
      some { s with judged := session.users :: s.judged }
    else some { s with
      sessions := s.sessions.set index s.session
      judged := s.loaded.users :: s.judged }

def start (file : Nat) (loaded : Loaded) : State := ⟨file, loaded, fun _ => .idle, [], []⟩

/-- Since a call that installs has read the file, no other has installed or the file is the same. -/
def undisturbed (s : State) : Event → Bool
  | .install call =>
    match s.calls call with
    | .installing stamp users since =>
      s.loaded.stamp = some stamp ∨ s.loaded.generation = since ∨ s.file = users
    | _ => true
  | _ => true

/-- A session of the loaded generation has the loaded users, and none was judged by newer ones.
    Until the next installation what a call has read is not older than what is loaded. -/
structure Forward (s : State) : Prop where
  order : s.judged.Pairwise (· ≥ ·)
  judged : ∀ users ∈ s.judged, users ≤ s.loaded.users
  sessions : ∀ session ∈ s.sessions, session.generation ≤ s.loaded.generation ∧
    (session.generation = s.loaded.generation → session.users = s.loaded.users)
  loaded : s.loaded.users ≤ s.file
  calls : ∀ {call stamp users since}, s.calls call = .installing stamp users since →
    users ≤ s.file ∧ since ≤ s.loaded.generation ∧
      (s.loaded.generation = since → s.loaded.users ≤ users)

variable {s t : State} {event : Event} {call : Nat}

theorem Forward.move (h : Forward s) {phase : Phase}
    (hphase : ∀ {stamp users since}, phase = .installing stamp users since →
      users = s.file ∧ since = s.loaded.generation) : Forward (s.move call phase) := by
  refine { h with calls := fun {other stamp users since} hother => ?_ }
  have hother : Function.update s.calls call phase other = .installing stamp users since := hother
  rw [Function.update_apply] at hother
  split_ifs at hother
  · obtain ⟨rfl, rfl⟩ := hphase hother
    exact ⟨Nat.le_refl _, Nat.le_refl _, fun _ => h.loaded⟩
  · exact h.calls hother

/-- A judgement takes the version that is loaded. -/
theorem Forward.judge (h : Forward s) (hfile : t.file = s.file) (hloaded : t.loaded = s.loaded)
    (hcalls : t.calls = s.calls) (hjudged : t.judged = s.loaded.users :: s.judged)
    (hsessions : ∀ session ∈ t.sessions, session ∈ s.sessions ∨ session = s.session) :
    Forward t := by
  refine ⟨?_, ?_, fun session hsession => ?_, ?_, ?_⟩
  · rw [hjudged]
    exact List.pairwise_cons.mpr ⟨h.judged, h.order⟩
  · rw [hjudged, hloaded]
    exact List.forall_mem_cons.mpr ⟨Nat.le_refl _, h.judged⟩
  · rw [hloaded]
    rcases hsessions session hsession with hold | rfl
    · exact h.sessions session hold
    · exact ⟨Nat.le_refl _, fun _ => rfl⟩
  · rw [hloaded, hfile]
    exact h.loaded
  · rw [hloaded, hfile, hcalls]
    exact h.calls

/-- What a call has read becomes what is loaded. -/
theorem Forward.install (h : Forward s) {stamp users since : Nat}
    (hphase : s.calls call = .installing stamp users since)
    (hnewer : s.loaded.generation = since ∨ s.file = users) :
    Forward { s.move call .judging with
      loaded := ⟨users, some stamp, s.loaded.generation + 1⟩ } := by
  obtain ⟨hfile, -, hread⟩ := h.calls hphase
  have hle : s.loaded.users ≤ users := by
    obtain hsince | hsame := hnewer
    · exact hread hsince
    · exact hsame ▸ h.loaded
  refine ⟨h.order, fun judged hmem => Nat.le_trans (h.judged judged hmem) hle,
    fun session hsession => ?_, hfile, fun hother => ?_⟩
  · -- no session has the new generation yet
    have hold := (h.sessions session hsession).1
    exact ⟨Nat.le_succ_of_le hold, fun heq => absurd (heq ▸ hold) (Nat.not_succ_le_self _)⟩
  · -- and no other call has read in it
    have hmoved : Forward (s.move call .judging) := h.move nofun
    obtain ⟨hother, hsince, -⟩ := hmoved.calls hother
    exact ⟨hother, Nat.le_succ_of_le hsince,
      fun heq => absurd (heq ▸ hsince) (Nat.not_succ_le_self _)⟩

/-- **STEP**: an undisturbed step never goes back. -/
theorem Forward.step (h : Forward s) (hcond : undisturbed s event) (hact : act s event = some t) :
    Forward t := by
  cases event with
  | edit =>
    cases hact
    exact { h with
      loaded := Nat.le_succ_of_le h.loaded
      calls := fun hcall => (h.calls hcall).imp_left Nat.le_succ_of_le }
  | stat call fails | check call | read call fails =>
    rw [act] at hact
    split at hact
    · cases hact
      refine h.move (fun hphase => ?_)
      split_ifs at hphase
      all_goals
        cases hphase
        exact ⟨rfl, rfl⟩
    · cases hact
  | install call =>
    rw [act] at hact
    cases hphase : s.calls call with
    | installing =>
      rw [hphase] at hact
      dsimp only at hact
      split_ifs at hact with hloaded
      · cases hact
        exact h.move nofun
      · cases hact
        rw [undisturbed, hphase] at hcond
        exact h.install hphase ((of_decide_eq_true hcond).resolve_left hloaded)
    | _ =>
      rw [hphase] at hact
      cases hact
  | judge call =>
    rw [act] at hact
    split at hact
    · cases hact
      have hidle : Forward (s.move call .idle) := h.move nofun
      exact hidle.judge rfl rfl rfl rfl (fun session hsession => (List.mem_cons.mp hsession).symm)
    · cases hact
  | refresh =>
    obtain ⟨session, hsession, hact⟩ := Option.bind_eq_some_iff.mp hact
    split_ifs at hact with hsame
    · cases hact
      refine h.judge rfl rfl rfl ?_ (fun _ => .inl)
      rw [(h.sessions session (List.mem_of_getElem? hsession)).2 hsame]
    · cases hact
      exact h.judge rfl rfl rfl rfl (fun _ hmem => List.mem_or_eq_of_mem_set hmem)

/-- **FORWARD**: over every run in which no other call installs, or the file does not change,
    between the read and the installation of a call, no authentication or refresh is judged against an older
    version than one before it. -/
theorem judged_forward {file : Nat} {loaded : Loaded} {events : List Event} {s : State}
    (hloaded : loaded.users ≤ file)
    (hrun : Run (fun s event t => act s event = some t)
      (fun s event => undisturbed s event) (start file loaded) events s) :
    s.judged.Pairwise (· ≥ ·) :=
  (hrun.invariant (I := Forward) (fun h hcond hact => h.step hcond hact)
    ⟨.nil, List.forall_mem_nil _, List.forall_mem_nil _, hloaded, by rintro _ _ _ _ ⟨⟩⟩).order

/-- Two calls reload one version, and a session goes on with it. -/
theorem judged_forward_three :
    ∃ s, Run (fun s event t => act s event = some t)
        (fun s event => undisturbed s event) (start 1 ⟨1, some 1, 1⟩)
        [.stat 0 false, .check 0, .judge 0, .edit, .stat 0 false, .check 0, .stat 1 false, .check 1,
          .read 0 false, .read 1 false, .install 0, .install 1, .judge 1, .refresh 1] s ∧
      s.judged = [2, 2, 1] ∧ s.judged.Pairwise (· ≥ ·) :=
  exists_run_of act id (p := fun s => s.judged = [2, 2, 1]) (by decide +kernel)
    (fun _ hrun hjudged => ⟨hjudged, judged_forward (Nat.le_refl 1) hrun⟩)

/-- **BACK**: call 0 reads version 2, call 1 reads and installs version 3, and then call 0 installs
    what it has read. -/
theorem reload_goes_back :
    ∃ s, Run (fun s event t => act s event = some t) (fun _ _ => True)
        (start 1 ⟨1, some 1, 1⟩)
        [.edit, .stat 0 false, .check 0, .read 0 false, .edit, .stat 1 false, .check 1,
          .read 1 false, .install 1, .judge 1, .install 0, .judge 0, .refresh 1] s ∧
      s.judged = [2, 2, 3] :=
  exists_run act id (by decide +kernel)

end Vyrn.Users
