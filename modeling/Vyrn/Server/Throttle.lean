import Vyrn.Lib.SortedMap
import Vyrn.Lib.Transition

/-!
# The authentication throttle

At ten failures an address is locked out for a minute after the last. Entries expire when the map is
full, and when a locked-out address asks again; a count below the limit stays however old it is, and
in a full map a failure of a tracked address is not counted. A streak is what should be remembered:
the failures since the last success, each less than `authLockout` after the one before it.
**`throttle_keeps_streaks`**: as long as every failure finds room and no old count of its address,
the throttle tracks the streaks that are not over.
-/

namespace Vyrn.Throttle

open SortedMap List Transition

variable {A : Type} [LinearOrder A]

def authFailureLimit : Nat := 10

/-- In nanoseconds. -/
def authLockout : Nat := 60 * 10 ^ 9

def authThrottleCapacity : Nat := 4096

structure AuthFailures where
  consecutive : Nat
  last : Nat
  deriving DecidableEq

abbrev Addresses (A : Type) := List (A × AuthFailures)

variable {now now' : Nat} {kept streak : Option AuthFailures} {addresses : Addresses A}
  {streaks : A → Option AuthFailures}

def live (now : Nat) (failures : AuthFailures) : Bool := now - failures.last < authLockout

/-- The answer, and the addresses without one whose lockout is over. -/
def isLockedOut (now : Nat) (addresses : Addresses A) (address : A) : Bool × Addresses A :=
  match lookup address addresses with
  | some failures =>
    if authFailureLimit ≤ failures.consecutive then
      if live now failures then (true, addresses) else (false, erase address addresses)
    else (false, addresses)
  | none => (false, addresses)

def makeRoom (now : Nat) (addresses : Addresses A) : Addresses A :=
  if authThrottleCapacity ≤ addresses.length then addresses.filter (fun e => live now e.2)
  else addresses

def recordFailure (now : Nat) (addresses : Addresses A) (address : A) : Addresses A :=
  let addresses := makeRoom now addresses
  if authThrottleCapacity ≤ addresses.length then addresses
  else
    let consecutive := ((lookup address addresses).map AuthFailures.consecutive).getD 0
    put address ⟨min (consecutive + 1) (2 ^ 32 - 1), now⟩ addresses

def recordSuccess (addresses : Addresses A) (address : A) : Addresses A := erase address addresses

/-! ## Runs -/

/-- The throttle, and beside it the streak of every address. -/
structure State (A : Type) where
  now : Nat
  addresses : Addresses A
  streaks : A → Option AuthFailures

inductive Call (A : Type) where
  | failure (address : A)
  | success (address : A)
  | ask (address : A)

/-- A failure goes on with a streak that is not over. -/
def extend (now : Nat) (streak : Option AuthFailures) : AuthFailures :=
  ⟨((streak.filter (live now)).map AuthFailures.consecutive).getD 0 + 1, now⟩

/-- A call at a time that is not before the last one's. -/
def act (s : State A) (event : Nat × Call A) : Option (State A) :=
  let now := event.1
  if s.now ≤ now then some (match event.2 with
    | .failure a => ⟨now, recordFailure now s.addresses a,
        Function.update s.streaks a (some (extend now (s.streaks a)))⟩
    | .success a => ⟨now, recordSuccess s.addresses a, Function.update s.streaks a none⟩
    | .ask a => ⟨now, (isLockedOut now s.addresses a).2, s.streaks⟩)
  else none

def start : State A := ⟨0, [], fun _ => none⟩

/-- A failure finds room, and no count of its own address that is over. -/
def hasRoom (s : State A) : Nat × Call A → Bool
  | (now, .failure a) => (makeRoom now s.addresses).length < authThrottleCapacity &&
      (lookup a (makeRoom now s.addresses)).all (live now)
  | _ => true

/-- What is kept of an address is its streak; of a streak that is over nothing need be kept. -/
def Kept (now : Nat) : Option AuthFailures → Option AuthFailures → Prop
  | some kept, streak =>
    ∃ count, streak = some ⟨count, kept.last⟩ ∧ kept.consecutive = min count (2 ^ 32 - 1)
  | none, streak => ∀ failures ∈ streak, live now failures = false

theorem Kept.later (h : Kept now kept streak) (hle : now ≤ now') : Kept now' kept streak := by
  cases kept with
  | none =>
    intro failures hmem
    have hover := h failures hmem
    rw [live, decide_eq_false_iff_not] at hover ⊢
    omega
  | some => exact h

/-- An entry that is over may go. -/
theorem Kept.filter (h : Kept now kept streak) : Kept now (kept.filter (live now)) streak := by
  cases kept with
  | none => exact h
  | some =>
    rw [Option.filter_some]
    split_ifs with hlive
    · exact h
    · obtain ⟨count, rfl, _⟩ := h
      rintro failures ⟨rfl⟩
      exact Bool.eq_false_iff.mpr hlive

/-- A failure on a live entry counts one more. -/
theorem Kept.extend (h : Kept now kept streak) (hlive : kept.all (live now)) :
    Kept now (some ⟨min ((kept.map AuthFailures.consecutive).getD 0 + 1) (2 ^ 32 - 1), now⟩)
      (some (extend now streak)) := by
  cases kept with
  | none =>
    have hover : streak.filter (live now) = none := Option.filter_eq_none_iff.mpr
      (fun failures hmem => Bool.eq_false_iff.mp (h failures hmem))
    exact ⟨1, by rw [Throttle.extend, hover]; rfl, rfl⟩
  | some kept =>
    obtain ⟨count, rfl, _⟩ := h
    refine ⟨count + 1, ?_, ?_⟩
    · rw [Throttle.extend, Option.filter_some,
        if_pos (show live now ⟨count, kept.last⟩ = true from hlive)]
      rfl
    · show min (kept.consecutive + 1) _ = _
      omega

/-- **COUNTED**: the map is in order and within its bound, and it keeps the streaks. -/
structure Counted (now : Nat) (addresses : Addresses A) (streaks : A → Option AuthFailures) :
    Prop where
  sorted : Sorted addresses
  bounded : addresses.length ≤ authThrottleCapacity
  kept : ∀ a, Kept now (lookup a addresses) (streaks a)

section

variable (h : Counted now addresses streaks)
include h

theorem Counted.makeRoom : Counted now (makeRoom now addresses) streaks := by
  rw [Throttle.makeRoom]
  split_ifs
  · refine ⟨h.sorted.filter _, (length_filter_le _ _).trans h.bounded, fun a => ?_⟩
    have hlive : lookup a (addresses.filter (fun e => live now e.2)) =
        (lookup a addresses).filter (live now) := by
      ext failures
      rw [lookup_eq_some (h.sorted.filter _), mem_filter, ← lookup_eq_some h.sorted,
        Option.filter_eq_some_iff]
    rw [hlive]
    exact (h.kept a).filter
  · exact h

/-- An entry that keeps its streak is put where there is room. -/
theorem Counted.put {kept : AuthFailures} (hroom : addresses.length < authThrottleCapacity)
    (hkept : Kept now (some kept) streak) (a : A) :
    Counted now (put a kept addresses) (Function.update streaks a streak) := by
  refine ⟨h.sorted.put _ _, ?_, fun b => ?_⟩
  · have hlen := length_update h.sorted (a, some kept)
    dsimp only [update, Option.isSome_some] at hlen ⊢
    split_ifs at hlen <;> omega
  · rw [lookup_put, Function.update_apply]
    split_ifs
    · exact hkept
    · exact h.kept b

theorem Counted.erase (a : A) (hkept : Kept now none streak) :
    Counted now (erase a addresses) (Function.update streaks a streak) := by
  refine ⟨h.sorted.filter _, (length_filter_le _ _).trans h.bounded, fun b => ?_⟩
  rw [lookup_erase, Function.update_apply]
  split_ifs
  · exact hkept
  · exact h.kept b

end

/-- **STEP**: a call with room keeps every streak's count. -/
theorem Counted.step {s t : State A} {event : Nat × Call A}
    (h : Counted s.now s.addresses s.streaks) (hroom : hasRoom s event)
    (hact : act s event = some t) : Counted t.now t.addresses t.streaks := by
  obtain ⟨now, call⟩ := event
  rw [act] at hact
  dsimp only at hact
  split_ifs at hact with hle
  cases hact
  have hnow : Counted now s.addresses s.streaks :=
    ⟨h.sorted, h.bounded, fun a => (h.kept a).later hle⟩
  cases call with
  | failure a =>
    obtain ⟨hlen, hlive⟩ := Bool.and_eq_true_iff.mp hroom
    have hlen := of_decide_eq_true hlen
    dsimp only [recordFailure]
    rw [if_neg (not_le.mpr hlen)]
    exact hnow.makeRoom.put hlen ((hnow.makeRoom.kept a).extend hlive) a
  | success a => exact hnow.erase a nofun
  | ask a =>
    dsimp only [isLockedOut]
    cases hlook : lookup a s.addresses with
    | none => exact hnow
    | some =>
      dsimp only
      split_ifs with hlimit hlive
      · exact hnow
      · have hgone := (hnow.kept a).filter
        rw [hlook, Option.filter_some, if_neg hlive] at hgone
        have herase := hnow.erase a hgone
        rwa [Function.update_eq_self] at herase
      · exact hnow

/-- An address is locked out when its streak is long and live. -/
theorem Kept.locked {a : A} (h : Kept now (lookup a addresses) streak) :
    (isLockedOut now addresses a).1 ↔
      ∃ failures ∈ streak, authFailureLimit ≤ failures.consecutive ∧ live now failures := by
  rw [isLockedOut]
  cases hlook : lookup a addresses with
  | none =>
    rw [hlook] at h
    refine iff_of_false Bool.false_ne_true ?_
    rintro ⟨failures, hmem, _, hlive⟩
    exact Bool.false_ne_true ((h failures hmem).symm.trans hlive)
  | some kept =>
    rw [hlook] at h
    obtain ⟨count, rfl, hcount⟩ := h
    have hlimit : authFailureLimit ≤ kept.consecutive ↔ authFailureLimit ≤ count := by
      rw [hcount, authFailureLimit]
      omega
    dsimp only
    split_ifs <;> simp_all [live]

/-- **STREAKS**: over every run whose failures find room and no old count, the number of addresses
    is bounded, what is kept of one is its streak, and it is locked out exactly while a streak of
    `authFailureLimit` failures is not over. The entry of a streak that is over may stay in the map,
    but the next failure is counted as the first. -/
theorem throttle_keeps_streaks {events : List (Nat × Call A)} {s : State A}
    (hrun : Run (fun s event t => act s event = some t)
      (fun s event => hasRoom s event) start events s) {now : Nat} (hnow : s.now ≤ now) (a : A) :
    s.addresses.length ≤ authThrottleCapacity ∧
      Kept now (lookup a s.addresses) (s.streaks a) ∧
      ((isLockedOut now s.addresses a).1 ↔
        ∃ streak ∈ s.streaks a, authFailureLimit ≤ streak.consecutive ∧ live now streak) ∧
      ((∀ streak ∈ s.streaks a, live now streak = false) → hasRoom s (now, .failure a) = true →
        lookup a (recordFailure now s.addresses a) = some ⟨1, now⟩) := by
  have h := hrun.invariant (I := fun s => Counted s.now s.addresses s.streaks)
    (fun h hroom hact => h.step hroom hact)
    ⟨sorted_nil, Nat.zero_le _, fun _ => (nofun : Kept 0 none none)⟩
  have hkept := (h.kept a).later hnow
  refine ⟨h.bounded, hkept, hkept.locked, fun hover hroom => ?_⟩
  -- what is kept of the address is over with its streak, and no old count is kept
  obtain ⟨hspace, hfresh⟩ := Bool.and_eq_true_iff.mp hroom
  rw [recordFailure, if_neg (not_le.mpr (of_decide_eq_true hspace)), lookup_put, if_pos rfl]
  have hlater : Counted now s.addresses s.streaks :=
    ⟨h.sorted, h.bounded, fun a => (h.kept a).later hnow⟩
  have hroomed := hlater.makeRoom.kept a
  cases hlook : lookup a (makeRoom now s.addresses) with
  | none => rfl
  | some kept =>
    rw [hlook] at hroomed hfresh
    obtain ⟨count, hstreak, -⟩ := hroomed
    have hold : live now kept = false := hover ⟨count, kept.last⟩ hstreak
    rw [Option.all_some, hold] at hfresh
    cases hfresh

/-- Ten failures in ten seconds. -/
theorem throttle_keeps_streaks_ten :
    ∃ s, Run (fun s event t => act s event = some t)
        (fun s event => hasRoom s event) start
        ((range 10).map (fun i => (i * 10 ^ 9, Call.failure 7))) s ∧
      ((isLockedOut (50 * 10 ^ 9) s.addresses 7).1 ↔
        ∃ streak ∈ s.streaks 7, authFailureLimit ≤ streak.consecutive ∧
          live (50 * 10 ^ 9) streak) :=
  exists_run_of act id (p := fun s => s.now ≤ 50 * 10 ^ 9) (by decide +kernel)
    (fun _ hrun hnow => (throttle_keeps_streaks hrun hnow 7).2.2.1)

/-- **OLD COUNT**: nine failures at once and one ten minutes later lock an address out. -/
theorem old_failures_lock_out :
    ∃ s, Run (fun s event t => act s event = some t) (fun _ _ => True) start
        (replicate 9 (0, Call.failure 7) ++ [(600 * 10 ^ 9, Call.failure 7)]) s ∧
      s.streaks 7 = some ⟨1, 600 * 10 ^ 9⟩ ∧ (isLockedOut (600 * 10 ^ 9) s.addresses 7).1 = true :=
  exists_run act id (by decide +kernel)

end Vyrn.Throttle
