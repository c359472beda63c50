import Vyrn.Lib.Transition
import Vyrn.ValueLog

/-!
# One value log, many handles

Every read handle and every checkpoint opens the log file again while the engine appends to it, and
every opening repairs the tail. What another opener finds of an append may be any part of the
record. The length and the cache of a handle are hints that follow the file and are left out.

Main results: `shared_log_intact`, `opening_cuts_append`.
-/

namespace Vyrn.ValueLog

open ByteString List Transition

/-- An append under way: where its record goes, and how much of it is in the file. -/
structure Appending where
  revision : Nat
  value : Bytes
  offset : Nat
  landed : Nat
  deriving DecidableEq, Repr

/-- The file, all that the writer has put into it, and what its appends have returned. -/
structure Shared where
  file : Bytes
  written : Bytes
  appending : Option Appending
  returned : List (ValueRef × Bytes)
  deriving DecidableEq, Repr

inductive Event where
  | append (value : Bytes) (revision : Nat)
  | land (count : Nat)
  | finish
  | open
  deriving DecidableEq, Repr

instance (revision : Nat) (value : Bytes) : Decidable (Admissible revision value) :=
  inferInstanceAs (Decidable (_ ∧ _))

namespace Shared

variable {log : Bytes} {s t : Shared}

/-- Writes at an offset; a gap before it reads as zeros. -/
def writeAt (file : Bytes) (offset : Nat) (bytes : Bytes) : Bytes :=
  file.take offset ++ replicate (offset - file.length) 0 ++ bytes
    ++ file.drop (offset + bytes.length)

def act (s : Shared) : Event → Option Shared
  | .append value revision =>
    if s.appending = none ∧ Admissible revision value then
      some { s with appending := some ⟨revision, value, s.file.length, 0⟩ }
    else none
  | .land count => do
    let a ← s.appending
    if a.landed + count ≤ totalLen a.value.length then
      let bytes := slice (record a.revision a.value) a.landed count
      some { s with
        file := writeAt s.file (a.offset + a.landed) bytes
        written := s.written ++ bytes
        appending := some { a with landed := a.landed + count } }
    else none
  | .finish => do
    let a ← s.appending
    if a.landed = totalLen a.value.length then
      some { s with
        appending := none
        returned := (⟨a.offset, a.value.length, a.revision⟩, a.value) :: s.returned }
    else none
  | .open =>
    match recoverTail s.file with
    | .ok kept => some { s with file := kept }
    | .error _ => some s

def Step (s : Shared) (event : Event) (t : Shared) : Prop := act s event = some t

/-- No opening meets a record of which a part is in the file. -/
def Quiet (s : Shared) (event : Event) : Prop :=
  event = .open → ∀ a ∈ s.appending, a.landed = 0 ∨ a.landed = totalLen a.value.length

instance (s : Shared) (event : Event) : Decidable (Quiet s event) :=
  inferInstanceAs (Decidable (_ → _))

/-- The file ends with what has landed of the append under way, behind whole records. -/
structure Intact (log : Bytes) (s : Shared) : Prop where
  file : s.file = log ++ s.written
  idle : s.appending = none → Whole s.file
  busy : ∀ a ∈ s.appending, Admissible a.revision a.value ∧ ∃ front, Whole front ∧
    a.offset = front.length ∧ s.file = front ++ (record a.revision a.value).take a.landed
  returned : ∀ r ∈ s.returned, read s.file r.1 = .ok r.2

theorem writeAt_end (file bytes : Bytes) : writeAt file file.length bytes = file ++ bytes := by
  simp [writeAt]

/-- Where no record is half written, opening changes nothing. -/
theorem Intact.open_eq (h : Intact log s) (hquiet : Quiet s .open) :
    recoverTail s.file = .ok s.file := by
  cases hbusy : s.appending with
  | none => exact (h.idle hbusy).recoverTail
  | some a =>
    obtain ⟨hadm, front, hfront, _, hfile⟩ := h.busy a hbusy
    have hwhole : Whole s.file := by
      rw [hfile]
      rcases hquiet rfl a hbusy with hnone | hall
      · rwa [hnone, take_zero, append_nil]
      · rw [hall, take_of_length_le (length_record _ _).le]
        exact hfront.append hadm
    exact hwhole.recoverTail

/-- A quiet step keeps whole records in front of the append under way. -/
theorem Intact.step {event : Event} (h : Intact log s) (hquiet : Quiet s event)
    (hstep : Step s event t) : Intact log t := by
  cases event with
  | append =>
    rw [Step, act] at hstep
    split_ifs at hstep with hidle
    cases hstep
    refine ⟨h.file, by rintro ⟨⟩, fun a ha => ?_, h.returned⟩
    cases ha
    exact ⟨hidle.2, s.file, h.idle hidle.1, rfl, (append_nil _).symm⟩
  | land =>
    obtain ⟨a, hbusy, hstep⟩ := Option.bind_eq_some_iff.mp hstep
    split_ifs at hstep with hcount
    cases hstep
    obtain ⟨hadm, front, hfront, hoffset, hfile⟩ := h.busy a hbusy
    have hend : a.offset + a.landed = s.file.length := by
      rw [hfile, length_append, length_take, length_record, hoffset]
      omega
    rw [hend, writeAt_end]
    refine ⟨?_, by rintro ⟨⟩, fun a' ha => ?_, fun r hr => read_mono _ (h.returned r hr)⟩
    · rw [h.file, append_assoc]
    · cases ha
      refine ⟨hadm, front, hfront, hoffset, ?_⟩
      rw [hfile, append_assoc, slice, ← take_add]
  | finish =>
    obtain ⟨a, hbusy, hstep⟩ := Option.bind_eq_some_iff.mp hstep
    split_ifs at hstep with hall
    cases hstep
    obtain ⟨hadm, front, hfront, hoffset, hfile⟩ := h.busy a hbusy
    rw [hall, take_of_length_le (length_record _ _).le] at hfile
    refine ⟨h.file, fun _ => ?_, by rintro _ ⟨⟩, fun r hr => ?_⟩
    · show Whole s.file
      rw [hfile]
      exact hfront.append hadm
    · rcases mem_cons.mp hr with rfl | hr
      · show read s.file _ = _
        rw [hfile, hoffset]
        exact (read_append front hadm).2
      · exact h.returned r hr
  | «open» =>
    rw [Step, act, h.open_eq hquiet] at hstep
    cases hstep
    exact h

/-- **INTACT**: over every run in which no opening finds a record half written, the file is the log
    as it was found and all that the writer has written, and every value that an append has returned
    a reference to can be read. -/
theorem shared_log_intact (hlog : Whole log) {events : List Event}
    (hrun : Run Step Quiet ⟨log, [], none, []⟩ events s) :
    s.file = log ++ s.written ∧ ∀ r ∈ s.returned, read s.file r.1 = .ok r.2 := by
  have h : Intact log s := hrun.invariant (I := Intact log)
    (fun h hquiet hstep => h.step hquiet hstep)
    ⟨(append_nil log).symm, fun _ => hlog, fun _ hnone => (nomatch hnone),
      forall_mem_nil _⟩
  exact ⟨h.file, h.returned⟩

/-- Two handles are opened, one before a record lands and one behind it. -/
theorem shared_log_intact_one :
    Whole [] ∧ ∃ s, Run Step Quiet ⟨[], [], none, []⟩
        [.append [7] 1, .open, .land 20, .land 13, .open, .finish] s ∧
      s.returned = [(⟨0, 1, 1⟩, [7])] ∧ read s.file ⟨0, 1, 1⟩ = .ok [7] := by
  refine ⟨whole_nil, exists_run_of act id
    (p := fun s => s.returned = [(⟨0, 1, 1⟩, [7])]) (by decide +kernel) (fun s hrun hone => ?_)⟩
  refine ⟨hone, (shared_log_intact whole_nil hrun).2 (⟨0, 1, 1⟩, [7]) ?_⟩
  rw [hone]
  exact mem_cons_self

/-- **CUT**: an opening finds five bytes of a record and removes them. The append goes on and
    returns a reference, under which nothing can be read. -/
theorem opening_cuts_append :
    ∃ s, Run Step (fun _ _ => True) ⟨[], [], none, []⟩
        [.append [7] 1, .land 5, .open, .land 28, .finish] s ∧
      s.file ≠ s.written ∧ s.returned = [(⟨0, 1, 1⟩, [7])] ∧
      read s.file ⟨0, 1, 1⟩ = .error (.corruptValue 0 "invalid value record header") :=
  exists_run act id (by decide +kernel)

end Shared

end Vyrn.ValueLog
