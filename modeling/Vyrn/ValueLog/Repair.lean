import Vyrn.Lib.Damage
import Vyrn.ValueLog

/-!
# Appends, cuts and repairs of one value log

A crash may cut the file anywhere, and the next opening repairs it before more is appended.
A reference is the place a record was appended at, and nothing else in it says that the record is
still there. Main results: `repaired_log`, `read_damaged`.
-/

namespace Vyrn.ValueLog

open ByteString List

/-- What happens to the file: a record is appended, or the file is cut and opened again. -/
inductive Repair where
  | append (revision : Nat) (value : Bytes)
  | cut (length : Nat)
  deriving DecidableEq, Repr

namespace Repair

def act (log : Bytes) : Repair → Except Error Bytes
  | .append revision value => (ValueLog.append log value revision).map Prod.snd
  | .cut length => recoverTail (log.take length)

/-- The records that are in the file afterwards. -/
def keep (records : List (Nat × Bytes)) : Repair → List (Nat × Bytes)
  | .append revision value => records ++ [(revision, value)]
  | .cut length => wholeRecords length records

/-- Only values within the limit are appended. -/
def Allowed : Repair → Prop
  | .append revision value => Admissible revision value
  | .cut _ => True

variable {records front rest : List (Nat × Bytes)} {revision n : Nat} {value : Bytes}

/-- A record is kept with those before it, or what is kept lies before it. -/
theorem wholeRecords_split (r : Nat × Bytes) (n : Nat) :
    if (logOf front).length + totalLen r.2.length ≤ n then
      front ++ [r] <+: wholeRecords n (front ++ r :: rest)
    else wholeRecords n (front ++ r :: rest) <+: front := by
  induction front generalizing n with
  | nil =>
    show ite (0 + _ ≤ n) _ _
    simp only [nil_append, wholeRecords, zero_add]
    split_ifs <;> simp
  | cons first front ih =>
    have hrest := ih (n - totalLen first.2.length)
    simp only [cons_append, wholeRecords, logOf_cons, length_append, length_record]
    by_cases hfirst : totalLen first.2.length ≤ n
    · simp only [if_pos hfirst, cons_prefix_cons, true_and]
      simp only [show totalLen first.2.length + (logOf front).length + totalLen r.2.length ≤ n ↔
        (logOf front).length + totalLen r.2.length ≤ n - totalLen first.2.length by omega]
      exact hrest
    · rw [if_neg hfirst, if_neg (by omega)]
      exact nil_prefix

/-- **APPENDS AND CUTS**: every step leads to the records that it keeps. -/
theorem foldlM_act {events : List Repair} (h : ∀ event ∈ events, event.Allowed)
    (hadm : ∀ r ∈ records, Admissible r.1 r.2) :
    events.foldlM act (logOf records) = .ok (logOf (events.foldl keep records)) ∧
      ∀ r ∈ events.foldl keep records, Admissible r.1 r.2 := by
  induction events generalizing records with
  | nil => exact ⟨rfl, hadm⟩
  | cons event events ih =>
    rw [forall_mem_cons] at h
    have hstep : act (logOf records) event = .ok (logOf (keep records event)) ∧
        ∀ r ∈ keep records event, Admissible r.1 r.2 := by
      cases event with
      | append =>
        refine ⟨?_, forall_mem_append.mpr ⟨hadm, forall_mem_singleton.mpr h.1⟩⟩
        rw [act, (read_append _ h.1).1, keep, logOf_append]
        simp [Except.map, logOf]
      | cut n =>
        exact ⟨recoverTail_cut n hadm, fun r hr => hadm r ((wholeRecords_sublist n _).subset hr)⟩
    rw [foldlM_cons, hstep.1]
    exact ih h.2 hstep.2

/-- **TAIL REPAIR**: after any appends and cuts the file is the records that the cuts left whole,
    and their references read them. Cut once more anywhere, it opens and is the records that lie
    before the cut; the references of the others are rejected. -/
theorem repaired_log {events : List Repair} (h : ∀ event ∈ events, event.Allowed) :
    events.foldlM act [] = .ok (logOf (events.foldl keep [])) ∧
      ∀ front revision value rest, events.foldl keep [] = front ++ (revision, value) :: rest →
        read (logOf (events.foldl keep [])) ⟨(logOf front).length, value.length, revision⟩
          = .ok value ∧
        ∀ n, ∃ left, recoverTail ((logOf (events.foldl keep [])).take n) = .ok (logOf left) ∧
          left <+: events.foldl keep [] ∧
          if (logOf front).length + totalLen value.length ≤ n then
            front ++ [(revision, value)] <+: left ∧
              read (logOf left) ⟨(logOf front).length, value.length, revision⟩ = .ok value
          else left <+: front ∧
            ∃ error, read (logOf left) ⟨(logOf front).length, value.length, revision⟩
              = .error error := by
  obtain ⟨hrun, hadm⟩ := foldlM_act h (forall_mem_nil _)
  refine ⟨hrun, fun front revision value rest hkept => ?_⟩
  generalize events.foldl keep [] = records at hadm hkept
  subst hkept
  have hvalue : Admissible revision value := hadm _ (mem_append_right _ mem_cons_self)
  have hread : ∀ later, read (logOf (front ++ [(revision, value)] ++ later))
      ⟨(logOf front).length, value.length, revision⟩ = .ok value := fun later =>
    read_record (c := logOf later) hvalue (by simp [logOf])
  refine ⟨by simpa using hread rest, fun n => ⟨_, recoverTail_cut n hadm,
    wholeRecords_sublist n _, ?_⟩⟩
  have hsplit := @wholeRecords_split front rest (revision, value) n
  split_ifs at hsplit ⊢ with hn
  · obtain ⟨later, hlater⟩ := hsplit
    exact ⟨⟨later, hlater⟩, hlater ▸ hread later⟩
  · refine ⟨hsplit, ?_⟩
    cases hkept : read (logOf (wholeRecords n (front ++ (revision, value) :: rest)))
        ⟨(logOf front).length, value.length, revision⟩ with
    | error error => exact ⟨error, rfl⟩
    | ok =>
      -- the reference begins where the file ends or behind it
      have hbound := bound_of_read hkept
      obtain ⟨removed, hremoved⟩ := hsplit
      have hlen := congrArg (fun kept => (logOf kept).length) hremoved
      simp only [logOf_append, length_append, totalLen, headerLen] at hbound hlen
      omega

/-- A record that was cut off, and one appended in its place. -/
theorem repaired_log_replaced :
    [Repair.append 1 [7], .cut 30, .append 2 [8]].foldlM act [] = .ok (logOf [(2, [8])]) :=
  (@repaired_log [.append 1 [7], .cut 30, .append 2 [8]] (by
    simp [Allowed, Admissible, maxValueSize])).1

end Repair

/-! ## Damaged bytes -/

variable {log value : Bytes} {reference : ValueRef} {i : Nat} {byte : Byte}

/-- What was read has the checksum that stands in the header. -/
theorem checksum_of_read (h : read log reference = .ok value) :
    fromBE (slice (slice log reference.offset headerLen) 17 4) =
      valueChecksum reference.revision value := by
  obtain ⟨hvalue, hvalid, hrevision, -⟩ := of_read h
  have hframed := hvalid 0
  rw [validateRecord_slice (bound_of_read h), validateFraming, guard_ok, guard_ok, guard_ok, hvalue,
    hrevision] at hframed
  exact not_not.mp (not_or.mp hframed.2.2.1).1

/-- **DAMAGE**: whichever byte of the file is changed, and whatever else the file holds, a value
    that could be read is read as it was, or not at all. -/
theorem read_damaged (h : read log reference = .ok value) (hi : i < log.length)
    (hbyte : byte ≠ log[i]) :
    (∃ error, read (log.set i byte) reference = .error error) ∨
      read (log.set i byte) reference = .ok value := by
  cases hread : read (log.set i byte) reference with
  | error error => exact .inl ⟨error, rfl⟩
  | ok =>
    right
    have hvalue := (of_read h).1
    have hvalue' := (of_read hread).1
    by_cases hinside : reference.offset + headerLen ≤ i ∧
        i < reference.offset + headerLen + reference.len
    · -- the two values would have the one checksum
      exfalso
      obtain ⟨hlt, hget⟩ := getElem_slice hinside.1 hinside.2 hi
      have hchecksum := checksum_of_read hread
      rw [slice_set_outside (.inr hinside.1), checksum_of_read h, ← hvalue', ← hvalue,
        slice_set_inside hinside.1, valueChecksum, valueChecksum, length_set] at hchecksum
      exact crc32_append_set_ne _ hlt (by rwa [hget]) (BitVec.eq_of_toNat_eq hchecksum.symm)
    · rw [← hvalue', slice_set_outside (by omega), hvalue]

/-- A value whose record lost a byte of its footer. -/
theorem read_damaged_footer :
    ∃ error, read ((record 5 [1, 2]).set 30 0) ⟨0, 2, 5⟩ = .error error := by
  have hread : read (record 5 [1, 2]) ⟨0, 2, 5⟩ = .ok [1, 2] := by decide +kernel
  exact (read_damaged hread (by decide +kernel) (by decide +kernel)).resolve_right
    (by decide +kernel)

end Vyrn.ValueLog
