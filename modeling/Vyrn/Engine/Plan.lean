import Vyrn.Engine.Overlay

/-!
# Planning a batch — from operations to page mutations and logged operations

A commit reads which keys and tombstones its operations touch are present, then walks the
operations once: it tracks presence as the batch changes it, collects the page mutations
(tombstones included) and keeps the operations that have an effect, which the log records. The
replays re-derive the mutations one logged operation at a time (`replayed`). **`plan_spec`**: the
planned mutations do what replaying the logged operations does.
-/

namespace Vyrn

open SortedMap List ByteString

/-! ## The code -/

inductive BatchOperation where
  | put (key value : Bytes)
  | delete (key : Bytes)
  deriving DecidableEq, Repr

def BatchOperation.key : BatchOperation → Bytes
  | .put key _ => key
  | .delete key => key

inductive BatchResult where
  | put
  | delete (existed : Bool)
  deriving DecidableEq, Repr

def validateKey (key : Bytes) : Except Error Unit :=
  if key = [] then .error .emptyKey
  else if maxKeySize < key.length then .error .keyTooLarge
  else .ok ()

def validateValue (value : Bytes) : Except Error Unit :=
  if maxValueSize < value.length then .error .valueTooLarge else .ok ()

def validateOperation : BatchOperation → Except Error Unit
  | .put key value => do
    validateKey key
    validateValue value
  | .delete key => validateKey key

def validateUserKey (key : Bytes) : Except Error Unit := do
  validateKey key
  if isInternal key then throw .reservedKey
  return ()

def validateUserOperation (operation : BatchOperation) : Except Error Unit :=
  if isInternal operation.key then .error .reservedKey else .ok ()

/-- Whether a key's history is kept: all but the change log's own. -/
def isVersionedKey (key : Bytes) : Bool :=
  !changeLogPrefix.isPrefixOf key && key ≠ changeLogStartKey

/-- `\0vyrn:doc:`, the prefix of document keys. -/
def documentKeyPrefix : Bytes := internalPrefix ++ [100, 111, 99, 58]

/-- Whether a key is part of the published change stream. -/
def isPublishedKey (key : Bytes) : Bool :=
  !isInternal key || documentKeyPrefix.isPrefixOf key

def changeLogKey (sequence : Nat) : Bytes := changeLogPrefix ++ toBE 8 sequence

/-- One commit's changes as the value of its change record. -/
def encodeBatch (entries : List (Bytes × Option Bytes)) : Bytes :=
  toBE 4 entries.length ++ entries.flatMap (fun entry =>
    (if entry.2.isSome then 1 else 0) :: (toBE 4 entry.1.length ++
      toBE 4 (entry.2.getD []).length ++ entry.1 ++ entry.2.getD []))

/-- What a batch has learnt about the presence of keys: nothing, or present or absent. -/
abbrev Presence := Bytes → Option Bool

def Presence.set (presence : Presence) (key : Bytes) (present : Bool) : Presence :=
  fun j => if j = key then some present else presence j

/-- The changes a batch publishes. A delete counts when the key is there, on disk or by an
    earlier operation of the batch. -/
def publishedEntries (present : Bytes → Except Error Bool) :
    Presence → List BatchOperation → Except Error (List (Bytes × Option Bytes))
  | _, [] => .ok []
  | live, .put key value :: rest => do
    let entries ← publishedEntries present (live.set key true) rest
    return if isPublishedKey key then (key, some value) :: entries else entries
  | live, .delete key :: rest => do
    let existed ← (match live key with
      | some existed => .ok existed
      | none => present key)
    let entries ← publishedEntries present (live.set key false) rest
    return if existed && isPublishedKey key then (key, none) :: entries else entries

/-- The keys whose presence a batch reads: its own, and the tombstones of its user keys while
    any tombstone can exist. -/
def wantedKeys (tombstonesPossible : Bool) (operations : List BatchOperation) : List Bytes :=
  keySet (operations.flatMap (fun operation =>
    if tombstonesPossible && !isInternal operation.key then
      [operation.key, tombstoneKey operation.key]
    else [operation.key]))

structure Plan where
  presence : Presence
  tombstonesPossible : Bool
  mutations : List (Bytes × Mutation)
  pending : List BatchOperation
  results : List BatchResult
  userDelta : Int

/-- A put of a user key first clears the key's tombstone. -/
def Plan.clearTombstone (plan : Plan) (key : Bytes) : Plan :=
  if !isInternal key && plan.tombstonesPossible &&
      plan.presence (tombstoneKey key) == some true then
    { plan with
      presence := plan.presence.set (tombstoneKey key) false
      mutations := plan.mutations ++ [(tombstoneKey key, .delete)] }
  else plan

/-- Keeps an operation that has an effect. -/
def Plan.log (plan : Plan) (operation : BatchOperation) (result : BatchResult) : Plan :=
  { plan with
    pending := plan.pending ++ [operation]
    results := plan.results ++ [result] }

def Plan.write (plan : Plan) (revision : Nat) (key value : Bytes) : Plan :=
  { plan with
    presence := plan.presence.set key true
    mutations := plan.mutations ++ [(key, .put value revision)]
    userDelta := plan.userDelta +
      if !isInternal key && !(plan.presence key).getD false then 1 else 0 }

def Plan.put (plan : Plan) (revision : Nat) (key value : Bytes) : Plan :=
  ((plan.clearTombstone key).write revision key value).log (.put key value) .put

def Plan.remove (plan : Plan) (key : Bytes) : Plan :=
  { plan with
    presence := plan.presence.set key false
    mutations := plan.mutations ++ [(key, .delete)] }

/-- A delete of a user key leaves a tombstone that carries its revision. -/
def Plan.leaveTombstone (plan : Plan) (revision : Nat) (key : Bytes) : Plan :=
  if isInternal key then plan
  else
    { plan with
      presence := plan.presence.set (tombstoneKey key) true
      tombstonesPossible := true
      mutations := plan.mutations ++ [(tombstoneKey key, .put [] revision)]
      userDelta := plan.userDelta - 1 }

def Plan.delete (plan : Plan) (revision : Nat) (key : Bytes) : Plan :=
  if (plan.presence key).getD false then
    ((plan.remove key).leaveTombstone revision key).log (.delete key) (.delete true)
  else { plan with results := plan.results ++ [.delete false] }

/-- One operation of the planning loop, which validates again: the change record joined the
    batch after the first validation. -/
def Plan.step (revision : Nat) (plan : Plan) (operation : BatchOperation) : Except Error Plan := do
  validateOperation operation
  match operation with
  | .put key value => return plan.put revision key value
  | .delete key => return plan.delete revision key

def Plan.steps (revision : Nat) : Plan → List BatchOperation → Except Error Plan
  | plan, [] => .ok plan
  | plan, operation :: rest => do
    let plan ← plan.step revision operation
    Plan.steps revision plan rest

/-- What the sweep over `wanted` found, as presence. -/
def presenceOf (wanted : List Bytes) (revisions : List (Option Nat)) : Presence :=
  fun key => (lookup key (wanted.zip revisions)).map Option.isSome

def Plan.start (wanted : List Bytes) (revisions : List (Option Nat))
    (tombstonesPossible : Bool) : Plan :=
  ⟨presenceOf wanted revisions, tombstonesPossible, [], [], [], 0⟩

/-! ## What a logged operation does -/

/-- A deleted user key's revision goes to its tombstone, a written one's tombstone goes. -/
def replayed (revision : Nat) (rows : Rows) :
    BatchOperation → Rows
  | .put key value =>
    let rows := put key ⟨value, revision⟩ rows
    if isInternal key then rows else erase (tombstoneKey key) rows
  | .delete key =>
    if (lookup key rows).isSome then
      let rows := erase key rows
      if isInternal key then rows else put (tombstoneKey key) ⟨[], revision⟩ rows
    else rows

def replayAll (revision : Nat) (rows : Rows)
    (operations : List BatchOperation) : Rows :=
  operations.foldl (replayed revision) rows

/-- Whether an operation changes the map. -/
def HasEffect (rows : Rows) : BatchOperation → Bool
  | .put _ _ => true
  | .delete key => (lookup key rows).isSome

/-- The operations of a batch that have an effect, each on what the ones before it left. -/
def effective (revision : Nat) : Rows → List BatchOperation →
    List BatchOperation
  | _, [] => []
  | rows, operation :: rest =>
    if HasEffect rows operation then
      operation :: effective revision (replayed revision rows operation) rest
    else effective revision rows rest

/-- What an operation answers. -/
def BatchOperation.answer (rows : Rows) : BatchOperation → BatchResult
  | .put _ _ => .put
  | .delete key => .delete (lookup key rows).isSome

/-- The answers of a batch, each about what the operations before it left. -/
def batchAnswers (revision : Nat) : Rows → List BatchOperation → List BatchResult
  | _, [] => []
  | rows, operation :: rest =>
    operation.answer rows :: batchAnswers revision (replayed revision rows operation) rest

/-- The rows of the user's own keys. -/
def userRows (rows : Rows) : Rows :=
  rows.filter (fun row => !isInternal row.1)

/-- No caller names a tombstone key: they are the engine's own. -/
def BatchOperation.FromCaller (operation : BatchOperation) : Prop :=
  tombstonePrefix.isPrefixOf operation.key = false

variable {operation : BatchOperation} {possible : Bool} {rows : Rows}
  {operations : List BatchOperation} {revision : Nat} {plan' plan : Plan}

/-- A tombstone's key is the engine's own. -/
theorem fromCaller_of_user (h : isInternal operation.key = false) : operation.FromCaller := by
  rw [BatchOperation.FromCaller, Bool.eq_false_iff]
  intro hpre
  obtain ⟨rest, hrest⟩ := List.isPrefixOf_iff_prefix.mp hpre
  have hinternal := isInternal_tombstoneKey rest
  rw [tombstoneKey, hrest, h] at hinternal
  exact Bool.false_ne_true hinternal

theorem ne_tombstoneKey (h : operation.FromCaller) (key : Bytes) :
    operation.key ≠ tombstoneKey key := by
  intro heq
  have hpre : tombstonePrefix.isPrefixOf operation.key = true := by
    rw [heq, List.isPrefixOf_iff_prefix]
    exact prefix_append _ _
  rw [h] at hpre
  exact Bool.false_ne_true hpre

theorem replayed_sorted (h : Sorted rows) (revision : Nat) (operation : BatchOperation) :
    Sorted (replayed revision rows operation) := by
  cases operation with
  | put =>
    rw [replayed]
    split_ifs
    · exact h.put _ _
    · exact (h.put _ _).filter _
  | delete =>
    rw [replayed]
    split_ifs
    · exact h.filter _
    · exact Sorted.put (h.filter _) _ _
    · exact h

theorem replayed_of_no_effect (h : HasEffect rows operation = false) (revision : Nat) :
    replayed revision rows operation = rows := by
  cases operation with
  | put => exact absurd h (by simp [HasEffect])
  | delete =>
    rw [HasEffect] at h
    rw [replayed, h]
    rfl

/-- Replaying the operations that have an effect is replaying them all. -/
theorem replayAll_effective (revision : Nat) (operations : List BatchOperation) (rows : Rows) :
    replayAll revision rows (effective revision rows operations)
      = replayAll revision rows operations := by
  induction operations generalizing rows with
  | nil => rfl
  | cons operation rest ih =>
    rw [effective]
    split_ifs with heff
    · exact ih (replayed revision rows operation)
    · rw [ih rows]
      show _ = replayAll revision (replayed revision rows operation) rest
      rw [replayed_of_no_effect (by simpa using heff)]

/-! ## The count of user keys -/

section Count

variable {rows : Rows}

/-- By how much an operation changes the number of user keys. -/
def BatchOperation.growth (rows : Rows) : BatchOperation → Int
  | .put key _ => if !isInternal key && !(lookup key rows).isSome then 1 else 0
  | .delete key => if (lookup key rows).isSome && !isInternal key then -1 else 0

/-- What one update adds to the user keys. -/
theorem userRows_update (h : Sorted rows) (u : Bytes × Option Versioned) :
    ((userRows (update rows u)).length : Int) = (userRows rows).length
      + if isInternal u.1 then 0 else
          (if u.2.isSome then 1 else 0) - (if (lookup u.1 rows).isSome then 1 else 0) := by
  rw [userRows, filter_update h (fun key => !isInternal key)]
  cases hint : isInternal u.1 with
  | true => simp [userRows]
  | false =>
    have hlook : lookup u.1 (userRows rows) = lookup u.1 rows := by
      rw [userRows, lookup_filter (fun key => !isInternal key), hint]
      rfl
    have hlen := length_update (h.filter (fun row => !isInternal row.1)) u
    rw [Bool.not_false, if_pos rfl, if_neg Bool.false_ne_true, hlen]
    rw [userRows] at hlook
    rw [hlook, userRows]
    omega

/-- **COUNT**: how an operation changes the number of user keys. -/
theorem userRows_replayed (h : Sorted rows) (revision : Nat) (operation : BatchOperation) :
    ((userRows (replayed revision rows operation)).length : Int)
      = (userRows rows).length + operation.growth rows := by
  have htomb : ∀ {m : Rows}, Sorted m → ∀ (key : Bytes) (v : Option Versioned),
      ((userRows (update m (tombstoneKey key, v))).length : Int) = (userRows m).length := by
    intro m hm key v
    rw [userRows_update hm, isInternal_tombstoneKey, if_pos rfl, add_zero]
  cases operation with
  | put key value =>
    have hput := userRows_update h (key, some ⟨value, revision⟩)
    rw [replayed, BatchOperation.growth]
    split_ifs with hint hgrow hgrow
    · simp [hint] at hgrow
    · rw [show put key ⟨value, revision⟩ rows = update rows (key, some ⟨value, revision⟩) from rfl,
        hput, if_pos hint]
    · refine (htomb (h.put _ _) key none).trans (hput.trans ?_)
      rw [if_neg hint]
      simp only [Bool.and_eq_true, Bool.not_eq_true', Option.isSome_eq_false_iff,
        Option.isNone_iff_eq_none] at hgrow
      simp [hgrow.2]
    · refine (htomb (h.put _ _) key none).trans (hput.trans ?_)
      rw [if_neg hint]
      have hsome : (lookup key rows).isSome = true := by simpa [hint] using hgrow
      simp [hsome]
  | delete key =>
    have herase := userRows_update h (key, none)
    rw [replayed, BatchOperation.growth]
    split_ifs with hsome hint hgrow hgrow hgrow
    · simp [hint] at hgrow
    · rw [show erase key rows = update rows (key, none) from rfl, herase, if_pos hint]
    · refine (htomb (h.filter _) key (some ⟨[], revision⟩)).trans (herase.trans ?_)
      rw [if_neg hint]
      simp [hsome]
    · simp [hsome, hint] at hgrow
    · simp [hsome] at hgrow
    · rw [add_zero]

end Count

/-! ## The plan follows the replay -/

/-- A plan over the map `base` has brought it to `rows`: its mutations lead there, its presence
    is right for the keys in `K`, and while it believes there is no tombstone there is none. -/
structure Tracks (base : Rows) (K : Bytes → Prop) (plan : Plan)
    (rows : Rows) : Prop where
  leads : updateAll base (plan.mutations.map Mutation.update) = rows
  present : ∀ key, K key → (plan.presence key).getD false = (lookup key rows).isSome
  tombless : plan.tombstonesPossible = false → ∀ key, lookup (tombstoneKey key) rows = none

section Tracks

variable {base rows : Rows} {K : Bytes → Prop} {plan : Plan}

section

variable (h : Tracks base K plan rows)
include h

theorem Tracks.sorted (hs : Sorted base) : Sorted rows :=
  h.leads ▸ Sorted.updateAll hs _

/-- One more mutation, with the presence that it leaves. -/
theorem Tracks.update (mutation : Bytes × Mutation)
    (hmutations : plan'.mutations = plan.mutations ++ [mutation])
    (hpresence : plan'.presence =
      plan.presence.set (Mutation.update mutation).1 (Mutation.update mutation).2.isSome)
    (htomb : plan'.tombstonesPossible = false → plan.tombstonesPossible = false ∧
      ∀ key, tombstoneKey key = (Mutation.update mutation).1 → (Mutation.update mutation).2 = none) :
    Tracks base K plan' (update rows (Mutation.update mutation)) := by
  refine ⟨?_, fun j hj => ?_, fun hposs key => ?_⟩
  · rw [hmutations, map_append, updateAll_concat, h.leads]
    rfl
  · rw [hpresence, Presence.set, lookup_update]
    split_ifs
    · rfl
    · exact h.present j hj
  · rw [lookup_update]
    split_ifs with hkey
    · exact (htomb hposs).2 key hkey
    · exact h.tombless (htomb hposs).1 key

theorem Tracks.log (operation : BatchOperation) (result : BatchResult) :
    Tracks base K (plan.log operation result) rows :=
  ⟨h.leads, h.present, h.tombless⟩

omit h in
/-- A user key's tombstone is cleared from the rows. -/
theorem Tracks.clearTombstone (hs : Sorted base) (h : Tracks base K plan rows) {key : Bytes}
    (hK : isInternal key = false → K (tombstoneKey key)) :
    Tracks base K (plan.clearTombstone key)
      (if isInternal key then rows else erase (tombstoneKey key) rows) := by
  have hsort := h.sorted hs
  rw [Plan.clearTombstone]
  by_cases hint : isInternal key = true
  · rw [if_pos hint, if_neg (by simp [hint])]
    exact h
  · have hint' : isInternal key = false := by simpa using hint
    rw [if_neg hint]
    split_ifs with hclear
    · exact h.update (tombstoneKey key, .delete) rfl rfl (fun hposs => ⟨hposs, fun _ _ => rfl⟩)
    · -- the tombstone is not there, so nothing has to go
      have hnone : lookup (tombstoneKey key) rows = none := by
        by_cases hposs : plan.tombstonesPossible = true
        · have hpres := h.present _ (hK hint')
          have hnot : plan.presence (tombstoneKey key) ≠ some true := by
            simpa [hint', hposs] using hclear
          rw [← Option.not_isSome_iff_eq_none, ← hpres]
          cases hp : plan.presence (tombstoneKey key) with
          | none => simp
          | some present =>
            cases present with
            | true => exact absurd hp hnot
            | false => simp
        · exact h.tombless (by simpa using hposs) key
      rw [erase_of_lookup_none hnone]
      exact h

theorem Tracks.write {key : Bytes} (hkey : ∀ j, key ≠ tombstoneKey j) (revision : Nat)
    (value : Bytes) :
    Tracks base K (plan.write revision key value) (put key ⟨value, revision⟩ rows) := by
  exact h.update (key, .put value revision) rfl rfl
    (fun hposs => ⟨hposs, fun j hj => absurd hj.symm (hkey j)⟩)

theorem Tracks.remove (key : Bytes) : Tracks base K (plan.remove key) (erase key rows) :=
  h.update (key, .delete) rfl rfl (fun hposs => ⟨hposs, fun _ _ => rfl⟩)

theorem Tracks.leaveTombstone (revision : Nat) (key : Bytes) :
    Tracks base K (plan.leaveTombstone revision key)
      (if isInternal key then rows else put (tombstoneKey key) ⟨[], revision⟩ rows) := by
  rw [Plan.leaveTombstone]
  split_ifs with hint
  · exact h
  · exact h.update (tombstoneKey key, .put [] revision) rfl rfl nofun

end

/-- **ONE OPERATION**: a planned operation does to the map what its replay does, is logged when it
    has an effect, answers about the map before it and counts its key. -/
theorem Tracks.step (hs : Sorted base) (h : Tracks base K plan rows)
    (hcaller : operation.FromCaller) (hK : K operation.key)
    (hKt : isInternal operation.key = false → K (tombstoneKey operation.key))
    (hstep : plan.step revision operation = .ok plan') :
    Tracks base K plan' (replayed revision rows operation) ∧
      plan'.pending = plan.pending ++ (if HasEffect rows operation then [operation] else []) ∧
      plan'.results = plan.results ++ [operation.answer rows] ∧
      plan'.userDelta = plan.userDelta + operation.growth rows ∧
      (plan'.tombstonesPossible = false → plan.tombstonesPossible = false) := by
  have hsort := h.sorted hs
  obtain ⟨_, _, hrun⟩ := bind_eq_ok.mp hstep
  cases operation with
  | put key value =>
    cases hrun
    have hne : key ≠ tombstoneKey key := ne_tombstoneKey hcaller key
    have hclear : Tracks base K (plan.clearTombstone key)
        (if isInternal key then rows else erase (tombstoneKey key) rows) :=
      h.clearTombstone hs hKt
    obtain ⟨hpending, hresults, hdelta, hflag⟩ :
        (plan.clearTombstone key).pending = plan.pending ∧
          (plan.clearTombstone key).results = plan.results ∧
          (plan.clearTombstone key).userDelta = plan.userDelta ∧
          (plan.clearTombstone key).tombstonesPossible = plan.tombstonesPossible := by
      rw [Plan.clearTombstone]
      split_ifs <;> exact ⟨rfl, rfl, rfl, rfl⟩
    have hrows : replayed revision rows (.put key value)
        = put key ⟨value, revision⟩
            (if isInternal key then rows else erase (tombstoneKey key) rows) := by
      rw [replayed]
      split_ifs
      · rfl
      · exact erase_put_comm hsort hne.symm _
    have hlook : lookup key (if isInternal key then rows else
        erase (tombstoneKey key) rows) = lookup key rows := by
      split_ifs
      · rfl
      · rw [lookup_erase, if_neg hne]
    have hpres := hclear.present key hK
    rw [hlook] at hpres
    refine ⟨?_, congrArg (· ++ [BatchOperation.put key value]) hpending,
      congrArg (· ++ [BatchResult.put]) hresults, ?_, hflag.symm.trans⟩
    · rw [hrows]
      exact (hclear.write (ne_tombstoneKey hcaller) revision value).log (.put key value) .put
    · show (plan.clearTombstone key).userDelta
          + (if !isInternal key && !((plan.clearTombstone key).presence key).getD false then 1
            else 0) = _
      rw [hdelta, hpres]
      rfl
  | delete key =>
    cases hrun
    have hpres : (plan.presence key).getD false = (lookup key rows).isSome :=
      h.present key hK
    have hleave := (h.remove key).leaveTombstone revision key
    rw [Plan.delete, HasEffect, replayed, hpres, BatchOperation.answer, BatchOperation.growth]
    cases hsome : (lookup key rows).isSome with
    | true =>
      rw [if_pos rfl, if_pos rfl, if_pos rfl, Plan.log]
      refine ⟨hleave.log _ _, ?_⟩
      rw [Plan.leaveTombstone]
      split_ifs with hint hgrow hgrow
      · simp [hint] at hgrow
      · exact ⟨rfl, rfl, (add_zero _).symm, id⟩
      · exact ⟨rfl, rfl, rfl, (nomatch ·)⟩
      · simp [hint] at hgrow
    | false =>
      exact ⟨⟨h.leads, h.present, h.tombless⟩, (append_nil _).symm, rfl, (add_zero _).symm, id⟩

/-- **ANSWERS**: a plan's results are the answers of its operations one after the other, and its
    delta is what they add to the user keys. -/
theorem Tracks.steps (hs : Sorted base) (h : Tracks base K plan rows)
    (hcaller : ∀ operation ∈ operations, operation.FromCaller)
    (hK : ∀ operation ∈ operations, K operation.key ∧
      (isInternal operation.key = false → K (tombstoneKey operation.key)))
    (hrun : Plan.steps revision plan operations = .ok plan') :
    Tracks base K plan' (replayAll revision rows operations) ∧
        plan'.pending = plan.pending ++ effective revision rows operations ∧
        plan'.results = plan.results ++ batchAnswers revision rows operations ∧
        plan'.userDelta = plan.userDelta
          + ((userRows (replayAll revision rows operations)).length - (userRows rows).length) ∧
        (plan'.tombstonesPossible = false → plan.tombstonesPossible = false) := by
  induction operations generalizing plan rows plan' with
  | nil =>
    cases hrun
    refine ⟨h, (append_nil _).symm, (append_nil _).symm, ?_, id⟩
    rw [replayAll, foldl_nil, sub_self, add_zero]
  | cons operation rest ih =>
    rw [forall_mem_cons] at hK hcaller
    obtain ⟨middle, hstep, hrest⟩ := bind_eq_ok.mp hrun
    obtain ⟨hmid, hpend, hresult, hdelta, hflag⟩ := h.step hs hcaller.1 hK.1.1 hK.1.2 hstep
    obtain ⟨hend, hpends, hresults, hdeltas, hflags⟩ := ih hmid hcaller.2 hK.2 hrest
    refine ⟨hend, ?_, ?_, ?_, hflag ∘ hflags⟩
    · rw [hpends, hpend, effective, append_assoc]
      split_ifs with heff
      · rfl
      · rw [replayed_of_no_effect (by simpa using heff)]
        rfl
    · rw [hresults, hresult, append_assoc]
      rfl
    · have hcount := userRows_replayed (h.sorted hs) revision operation
      rw [hdeltas, hdelta, replayAll, replayAll, foldl_cons]
      omega

end Tracks

/-! ## Planning a whole batch -/

/-- An operation the loop accepts. -/
def BatchOperation.Valid (operation : BatchOperation) : Prop :=
  validateOperation operation = .ok ()

instance (operation : BatchOperation) : Decidable operation.Valid :=
  inferInstanceAs (Decidable (_ = _))

theorem validateKey_ok {key : Bytes} (h : validateKey key = .ok ()) :
    0 < key.length ∧ key.length ≤ maxKeySize := by
  rw [validateKey] at h
  split_ifs at h with hnil hlen
  exact ⟨length_pos_iff.mpr hnil, not_lt.mp hlen⟩

theorem validateValue_ok {value : Bytes} (h : validateValue value = .ok ()) :
    value.length ≤ maxValueSize := by
  rw [validateValue] at h
  split_ifs at h with hlen
  exact not_lt.mp hlen

theorem storedKey_of_valid {key : Bytes} (h : validateKey key = .ok ()) :
    StoredKey key ∧ StoredKey (tombstoneKey key) := by
  obtain ⟨hpos, _⟩ := validateKey_ok h
  have hlen : (tombstoneKey key).length = tombstonePrefix.length + key.length :=
    length_append
  have hpre : maxStoredKeySize = maxKeySize + tombstonePrefix.length := rfl
  exact ⟨⟨hpos, by omega⟩, ⟨by omega, by omega⟩⟩

/-- The mutations a plan holds can be stored. -/
def Plan.Storable (plan : Plan) : Prop := ∀ m ∈ plan.mutations, Mutation.Admissible m

/-- **ADDED**: an operation that has an effect is kept, and adds a mutation of its key and perhaps
    one of the tombstone. -/
theorem Plan.step_adds (hstep : plan.step revision operation = .ok plan') :
    plan'.mutations = plan.mutations ∧ plan'.pending = plan.pending ∨
      plan'.pending = plan.pending ++ [operation] ∧ ∀ m ∈ plan'.mutations, m ∈ plan.mutations ∨
        m = (operation.key, match operation with
          | .put _ value => .put value revision
          | .delete _ => .delete) ∨
        isInternal operation.key = false ∧ m = (tombstoneKey operation.key, match operation with
          | .put _ _ => .delete
          | .delete _ => .put [] revision) := by
  obtain ⟨_, _, hstep⟩ := bind_eq_ok.mp hstep
  cases operation with
  | put key =>
    cases hstep
    simp only [Plan.put, Plan.clearTombstone]
    split_ifs with hclear
    · have huser : isInternal key = false := by simp_all
      refine .inr ⟨rfl, fun m hm => ?_⟩
      simp only [Plan.write, Plan.log, mem_append, mem_singleton] at hm
      tauto
    · exact .inr ⟨rfl, fun m hm => (mem_append.mp hm).imp_right
        (fun hm => .inl (mem_singleton.mp hm))⟩
  | delete key =>
    cases hstep
    simp only [Plan.delete, Plan.leaveTombstone]
    split_ifs with hpresent hint
    · exact .inr ⟨rfl, fun m hm => (mem_append.mp hm).imp_right
        (fun hm => .inl (mem_singleton.mp hm))⟩
    · have huser : isInternal key = false := Bool.eq_false_iff.mpr hint
      refine .inr ⟨rfl, fun m hm => ?_⟩
      simp only [Plan.remove, Plan.log, mem_append, mem_singleton] at hm
      tauto
    · exact .inl ⟨rfl, rfl⟩

theorem Plan.step_storable (h : plan.Storable) (hrev : revision < 256 ^ 8)
    (hstep : plan.step revision operation = .ok plan') : plan'.Storable := by
  obtain ⟨_, hvalid, _⟩ := bind_eq_ok.mp hstep
  rcases Plan.step_adds hstep with ⟨hsame, _⟩ | ⟨_, hadds⟩
  · rw [Plan.Storable, hsame]
    exact h
  · intro m hm
    rcases hadds m hm with hold | rfl | ⟨_, rfl⟩
    · exact h m hold
    · cases operation with
      | put =>
        obtain ⟨_, hkey, hvalue⟩ := bind_eq_ok.mp hvalid
        exact ⟨(storedKey_of_valid hkey).1, hrev, validateValue_ok hvalue⟩
      | delete => trivial
    · cases operation with
      | put => trivial
      | delete => exact ⟨(storedKey_of_valid hvalid).2, hrev, Nat.zero_le _⟩

theorem Plan.steps_ok {revision : Nat} (hrev : revision < 256 ^ 8)
    {operations : List BatchOperation} (hvalid : ∀ operation ∈ operations, operation.Valid)
    (h : plan.Storable) :
    ∃ plan', Plan.steps revision plan operations = .ok plan' ∧ plan'.Storable := by
  induction operations generalizing plan with
  | nil => exact ⟨_, rfl, h⟩
  | cons operation rest ih =>
    rw [forall_mem_cons] at hvalid
    have hop : validateOperation operation = .ok () := hvalid.1
    obtain ⟨middle, hstep⟩ : ∃ middle, plan.step revision operation = .ok middle := by
      cases operation with
      | put key value | delete key => exact ⟨_, by rw [Plan.step, hop]; rfl⟩
    obtain ⟨plan', hrun, hstore⟩ := ih hvalid.2 (Plan.step_storable h hrev hstep)
    exact ⟨plan', by rw [Plan.steps, hstep, ok_bind, hrun], hstore⟩

theorem lookup_zip_map {α : Type} (f : Bytes → α) (keys : List Bytes) (key : Bytes) :
    lookup key (keys.zip (keys.map f)) = if key ∈ keys then some (f key) else none := by
  induction keys with
  | nil => rfl
  | cons j keys ih =>
    rw [map_cons, zip_cons_cons, lookup_entry, ih]
    by_cases hj : key = j
    · simp [hj]
    · simp [hj]

theorem mem_wantedKeys (hop : operation ∈ operations) :
    operation.key ∈ wantedKeys possible operations := by
  rw [wantedKeys, mem_keySet, mem_flatMap]
  refine ⟨operation, hop, ?_⟩
  split_ifs <;> exact mem_cons_self

theorem Reaches.batch {levels : Nat} {buffer : Option Overlay} {combined : List BatchOperation}
    (h : Reaches levels buffer (wantedKeys possible combined))
    (hsub : ∀ operation ∈ operations, operation ∈ combined) :
    Reaches levels buffer (operations.map BatchOperation.key) := by
  refine h.mono (fun key hkey => ?_)
  obtain ⟨operation, hop, rfl⟩ := mem_map.mp hkey
  exact mem_wantedKeys (hsub operation hop)

/-- A key that a batch looks at: an operation's, or the tombstone of a user key. -/
def Asked (operations : List BatchOperation) (key : Bytes) : Prop :=
  ∃ operation ∈ operations, key = operation.key ∨
    (isInternal operation.key = false ∧ key = tombstoneKey operation.key)

/-- What a batch reads before it plans. -/
theorem tracks_start (htomb : possible = false → ∀ key, lookup (tombstoneKey key) rows = none)
    (operations : List BatchOperation) :
    Tracks rows (Asked operations)
      (Plan.start (wantedKeys possible operations)
        ((wantedKeys possible operations).map
          (fun key => (lookup key rows).map Versioned.revision)) possible) rows := by
  refine ⟨rfl, ?_, htomb⟩
  rintro key ⟨operation, hop, hkey⟩
  show ((lookup key _).map Option.isSome).getD false = _
  rw [lookup_zip_map]
  split_ifs with hmem
  · simp
  · -- a key that was not asked for is a tombstone, and there is none
    rcases hkey with rfl | ⟨hint, rfl⟩
    · exact absurd (mem_wantedKeys hop) hmem
    · rw [wantedKeys, mem_keySet, mem_flatMap] at hmem
      cases possible with
      | true =>
        refine absurd ⟨operation, hop, ?_⟩ hmem
        rw [if_pos (by simp [hint])]
        exact mem_cons_of_mem _ mem_cons_self
      | false =>
        rw [htomb rfl]
        rfl

/-- What a plan of operations on a map says. -/
structure Plan.Follows (plan : Plan) (revision : Nat) (rows : Rows)
    (operations : List BatchOperation) (possible : Bool) : Prop where
  storable : plan.Storable
  pending : plan.pending = effective revision rows operations
  results : plan.results = batchAnswers revision rows operations
  userDelta : plan.userDelta
    = (userRows (replayAll revision rows operations)).length - (userRows rows).length
  leads : updateAll rows (plan.mutations.map Mutation.update)
    = replayAll revision rows operations
  tombless : plan.tombstonesPossible = false → possible = false ∧
    ∀ key, lookup (tombstoneKey key) (replayAll revision rows operations) = none

/-- **PLAN**: the planned mutations do what replaying the batch does, and the logged operations
    are those with an effect. -/
theorem plan_spec (hs : Sorted rows)
    (htomb : possible = false → ∀ key, lookup (tombstoneKey key) rows = none)
    (hvalid : ∀ operation ∈ operations, operation.Valid)
    (hcaller : ∀ operation ∈ operations, operation.FromCaller) (hrev : revision < 256 ^ 8) :
    ∃ plan, Plan.steps revision
        (Plan.start (wantedKeys possible operations)
          ((wantedKeys possible operations).map
            (fun key => (lookup key rows).map Versioned.revision)) possible)
        operations = .ok plan ∧ plan.Follows revision rows operations possible := by
  obtain ⟨plan, hrun, hstore⟩ := Plan.steps_ok hrev hvalid
    (show (Plan.start (wantedKeys possible operations)
      ((wantedKeys possible operations).map
        (fun key => (lookup key rows).map Versioned.revision)) possible).Storable
      from forall_mem_nil _)
  obtain ⟨htracks, hpend, hresults, hdelta, hflag⟩ :=
    (tracks_start htomb operations).steps hs hcaller
      (fun o ho => ⟨⟨o, ho, .inl rfl⟩, fun hint => ⟨o, ho, .inr ⟨hint, rfl⟩⟩⟩) hrun
  exact ⟨plan, hrun, hstore, hpend, hresults, hdelta.trans (zero_add _), htracks.leads,
    fun hposs => ⟨hflag hposs, htracks.tombless hposs⟩⟩

end Vyrn
