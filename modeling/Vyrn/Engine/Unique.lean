import Vyrn.Engine.Entries

/-!
# Unique indexes stay unique

A claim is granted when the batch's earlier claims on the value are of the same primary key and
every other holder is released; what is released is deleted, and nothing in the batch can put it
back, since that would be a claim too (`Indexed.write`). An index that is created starts without
entries, because every entry belongs to an index there is, and one that is dropped takes its entries
with it. Together: **`unique_indexes_stay_unique`**.
-/

namespace Vyrn

open SortedMap List Transition Mvcc

/-! ## The calls -/

inductive IndexCall where
  | createIndex (name : Bytes) (unique : Bool)
  | dropIndex (name : Bytes)
  | writeIndexed (operations : List BatchOperation) (updates : List IndexUpdate)
  | writeIndexedDeferred (operations : List BatchOperation) (updates : List IndexUpdate)
  deriving DecidableEq, Repr

def Engine.call (engine : Engine) : IndexCall → Except Error Engine
  | .createIndex name unique => engine.createIndex name unique
  | .dropIndex name => engine.dropIndex name
  | .writeIndexed operations updates => (engine.writeIndexed operations updates).map Prod.snd
  | .writeIndexedDeferred operations updates =>
    (engine.writeIndexedDeferred operations updates).map Prod.snd

/-- A call succeeds, or it is refused and leaves what no read sees. -/
inductive Engine.Called (engine : Engine) (call : IndexCall) : Engine → Prop where
  | done {after : Engine} : engine.call call = .ok after → Called engine call after
  | refused {error : Error} {after : Engine} : engine.call call = .error error →
      Residue engine after → Called engine call after

/-- The engine of a new database. -/
def Engine.opened (options : EngineOptions) : Engine :=
  { Engine.atRest PageTree.fresh with
    writeBack :=
      if 0 < options.writeBackBuffer then some (Overlay.new options.writeBackBuffer) else none
    changeLogEnabled := options.changeLog }

/-! ## The invariant -/

/-- Every entry belongs to an index there is, and a unique one has one for each value. -/
structure Indexed (engine : Engine) (rows : Rows) : Prop where
  owned : ∀ key, indexEntryRoot <+: key → (valueIn rows key).isSome = true →
    key.length ≤ maxKeySize ∧ ∃ name value primary, key = indexEntryKey name value primary ∧
      (lookup name engine.indexes).isSome = true
  unique : ∀ name value primary other, lookup name engine.indexes = some true →
    (valueIn rows (indexEntryKey name value primary)).isSome = true →
    (valueIn rows (indexEntryKey name value other)).isSome = true → primary = other

/-- What every call keeps. -/
def Engine.KeepsIndexes (engine : Engine) : Prop :=
  ∃ levels rows, Serves true engine levels rows ∧
    WellFormed engine.mvcc engine.mvccValues ∧ Indexed engine rows

section Calls

variable {engine after : Engine} {levels : Nat} {rows rows' : Rows}
  {operations : List BatchOperation} {results : List BatchResult} {name : Bytes}

/-- The invariant passes to a map with no more entries of the indexes there still are. -/
theorem Indexed.mono (h : Indexed engine rows)
    (hless : ∀ name value primary,
      (valueIn rows' (indexEntryKey name value primary)).isSome = true →
      (valueIn rows (indexEntryKey name value primary)).isSome = true ∧
        lookup name after.indexes = lookup name engine.indexes)
    (hrooted : ∀ key, indexEntryRoot <+: key → (valueIn rows' key).isSome = true →
      (valueIn rows key).isSome = true) : Indexed after rows' := by
  constructor
  · intro key hroot hheld
    obtain ⟨hlen, name, value, primary, rfl, hname⟩ := h.owned key hroot (hrooted key hroot hheld)
    refine ⟨hlen, name, value, primary, rfl, ?_⟩
    rw [(hless name value primary hheld).2]
    exact hname
  · intro name value primary other hunique hheld hother
    obtain ⟨hold, hsame⟩ := hless name value primary hheld
    exact h.unique name value primary other (hsame ▸ hunique) hold (hless name value other hother).1

section

variable (h : Indexed engine rows) (hserves : Serves true engine levels rows)
  (hm : WellFormed engine.mvcc engine.mvccValues)
include h hserves hm

/-- **CREATE**: a new index has no entries. -/
theorem Indexed.create {unique : Bool} (hrun : engine.createIndex name unique = .ok after) :
    after.KeepsIndexes := by
  obtain ⟨_, hnew, results, committed, happly, rfl⟩ := createIndex_form hrun
  obtain ⟨levels', rows', hserves', hwf, _, hvalue⟩ :=
    applyBatch_rows hserves hm (forall_mem_singleton.mpr (by rfl)) happly
  have hsame : ∀ key, indexEntryRoot <+: key → valueIn rows' key = valueIn rows key := by
    intro key hkey
    rw [hvalue key (entry_ne_tombstone hkey) (entry_ne_changeLog hkey), foldl_cons, foldl_nil, BatchOperation.leaves, if_neg]
    rintro rfl
    exact not_prefix_of rfl hkey
  refine ⟨levels', rows', hserves'.congr rfl rfl rfl, hwf,
    h.mono (fun other value primary hheld => ?_) (fun key hkey hheld => hsame key hkey ▸ hheld)⟩
  rw [hsame _ (indexEntryKey_rooted _ _ _)] at hheld
  refine ⟨hheld, ?_⟩
  rw [lookup_put, if_neg]
  rintro rfl
  obtain ⟨hlen, _, _, _, hkey, hname⟩ := h.owned _ (indexEntryKey_rooted _ _ _) hheld
  obtain ⟨rfl, _⟩ := indexEntryKey_inj hlen hkey
  exact Option.not_isSome_iff_eq_none.mpr hnew hname

/-- **DROP**: an index takes all its entries with it. -/
theorem Indexed.drop (hcount : engine.Counted) (hrun : engine.dropIndex name = .ok after) :
    after.KeepsIndexes := by
  rw [Engine.dropIndex] at hrun
  obtain ⟨-, hrun⟩ := guard_ok.mp hrun
  obtain ⟨deletes, hdeletes, hrun⟩ := bind_eq_ok.mp hrun
  obtain ⟨⟨results, committed⟩, happly, hrun⟩ := bind_eq_ok.mp hrun
  cases hrun
  obtain ⟨found, hscan, hdeletes⟩ := bind_eq_ok.mp hdeletes
  cases hdeletes
  have hfound := treeScan_complete hserves hcount hscan
  -- every operation is a delete, of an entry of the index or of its definition
  have hdelete : ∀ operation ∈ found.map (fun row => BatchOperation.delete row.1)
      ++ [.delete (indexDefinitionKey name)], operation.FromCaller ∧ operation.value? = none := by
    intro operation hop
    rcases mem_append.mp hop with hop | hop
    · obtain ⟨row, hrow, rfl⟩ := mem_map.mp hop
      obtain ⟨rest, hkey⟩ := ((hfound row.1).mp (mem_map_of_mem hrow)).1
      refine ⟨?_, rfl⟩
      rw [BatchOperation.FromCaller, BatchOperation.key, ← hkey]
      rfl
    · rw [mem_singleton.mp hop]
      exact ⟨rfl, rfl⟩
  obtain ⟨levels', rows', hserves', hwf, _, hvalue⟩ :=
    applyBatch_rows hserves hm (fun operation hop => (hdelete operation hop).1) happly
  have hkept : ∀ key, indexEntryRoot <+: key → (valueIn rows' key).isSome = true →
      (valueIn rows key).isSome = true ∧ ¬ indexEntryPrefix name <+: key := by
    intro key hkey hheld
    rw [hvalue key (entry_ne_tombstone hkey) (entry_ne_changeLog hkey)] at hheld
    rcases foldl_leaves_cases with ⟨hnone, heq⟩ | ⟨operation, hop, _, heq⟩
    · rw [heq] at hheld
      refine ⟨hheld, fun hfront => ?_⟩
      obtain ⟨row, hrow, rfl⟩ := mem_map.mp ((hfound key).mpr ⟨hfront, hheld⟩)
      exact hnone _ (mem_append_left _ (mem_map_of_mem hrow)) rfl
    · rw [heq, (hdelete operation hop).2] at hheld
      exact absurd hheld Bool.false_ne_true
  refine ⟨levels', rows', hserves'.congr rfl rfl rfl, hwf,
    h.mono (fun other value primary hheld => ?_) (fun key hkey hheld => (hkept key hkey hheld).1)⟩
  obtain ⟨hold, hother⟩ := hkept _ (indexEntryKey_rooted _ _ _) hheld
  refine ⟨hold, ?_⟩
  rw [applyBatch_indexes happly, lookup_erase, if_neg]
  rintro rfl
  refine hother ?_
  rw [indexEntryKey, indexValuePrefix, append_assoc, append_assoc]
  exact prefix_append _ _

/-- **WRITE**: of two entries of a value of a unique index a batch leaves one at most. -/
theorem Indexed.write (hcount : engine.Counted) {updates : List IndexUpdate}
    (huser : ∀ operation ∈ operations, isInternal operation.key = false)
    (hrun : engine.writeIndexedBatch operations updates = .ok (results, after)) :
    after.KeepsIndexes := by
  obtain ⟨levels', rows', entries, hserves', hwf, hindexes, hentries, hvalid, hupdates, hvalue⟩ :=
    writeIndexedBatch_rows hserves hm (fun o ho => fromCaller_of_user (huser o ho)) hrun
  have hentry : ∀ key, indexEntryRoot <+: key → valueIn rows' key
      = (updates.flatMap IndexUpdate.operations).foldl (BatchOperation.leaves key)
          (valueIn rows key) := by
    intro key hkey
    have hne : ∀ operation ∈ operations, operation.key ≠ key := by
      rintro operation hop rfl
      obtain ⟨rest, hrest⟩ := hkey
      cases hrest ▸ huser operation hop
    rw [hvalue key (entry_ne_tombstone hkey) (entry_ne_changeLog hkey), foldl_append,
      foldl_leaves_ne hne]
  -- an entry that is there afterwards was put by a claim, or was there and is not released
  have hfrom : ∀ key, indexEntryRoot <+: key → (valueIn rows' key).isSome = true →
      (∃ update ∈ updates, ∃ name value primary, update.Claims name value primary ∧
        key = indexEntryKey name value primary ∧ key.length ≤ maxKeySize) ∨
      ((valueIn rows key).isSome = true ∧ ∀ update ∈ updates, ∀ name value primary,
        update.Releases name value primary → key ≠ indexEntryKey name value primary) := by
    intro key hkey hheld
    rw [hentry key hkey] at hheld
    rcases foldl_leaves_cases with ⟨hnone, heq⟩ | ⟨operation, hop, hopkey, heq⟩
    · rw [heq] at hheld
      refine .inr ⟨hheld, ?_⟩
      rintro update hmem name value primary hreleases rfl
      exact hnone _ (mem_flatMap.mpr ⟨update, hmem,
        mem_operations.mpr (.inr ⟨name, value, primary, hreleases, rfl⟩)⟩) rfl
    · have hstored := (validateKey_ok
        (hvalid operation (mem_append_right _ hop)).validateKey).2
      obtain ⟨update, hmem, hop⟩ := mem_flatMap.mp hop
      rcases mem_operations.mp hop with ⟨name, value, primary, hclaims, rfl⟩ |
        ⟨name, value, primary, _, rfl⟩
      · subst hopkey
        exact .inl ⟨update, hmem, name, value, primary, hclaims, rfl, hstored⟩
      · rw [heq] at hheld
        exact absurd hheld Bool.false_ne_true
  refine ⟨levels', rows', hserves', hwf, ?_, ?_⟩
  · intro key hkey hheld
    rw [hindexes]
    rcases hfrom key hkey hheld with ⟨update, hmem, name, value, primary, hclaims, rfl, hlen⟩ |
      ⟨hold, _⟩
    · refine ⟨hlen, name, value, primary, rfl, ?_⟩
      -- the update was checked to name an index there is
      obtain ⟨_, _, hcheck⟩ := bind_eq_ok.mp (hupdates update hmem)
      obtain ⟨_, _, hcheck⟩ := bind_eq_ok.mp hcheck
      obtain ⟨_, _, hcheck⟩ := bind_eq_ok.mp hcheck
      obtain ⟨hmissing, -⟩ := guard_ok.mp hcheck
      rw [← hclaims.index, ← Option.not_isNone, Bool.eq_false_iff.mpr hmissing]
      rfl
    · exact h.owned key hkey hold
  · intro name value primary other hunique hheld hother
    rw [hindexes] at hunique
    -- a claim on the value, and a holder of it that is no claimant
    have hclash : ∀ {claimant holder : Bytes}, (∃ update ∈ updates,
        update.Claims name value claimant) →
        (valueIn rows (indexEntryKey name value holder)).isSome = true →
        (∀ update ∈ updates, ∀ n v p, update.Releases n v p →
          indexEntryKey name value holder ≠ indexEntryKey n v p) → holder = claimant := by
      rintro claimant holder ⟨update, hmem, hclaims⟩ hheld hkept
      obtain ⟨existing, hlookup, hreleased⟩ :=
        holders_released hunique hentries update hmem claimant hclaims
      rcases hreleased holder (lookupIndex_complete hserves hcount hlookup hheld) with heq | hin
      · exact heq
      · obtain ⟨releasing, hin, hreleases⟩ := releases_of_mem hin
        exact absurd rfl (hkept releasing hin name value holder hreleases)
    have hclaimed : ∀ {mine : Bytes}, (∃ update ∈ updates, ∃ n v p, update.Claims n v p ∧
        indexEntryKey name value mine = indexEntryKey n v p ∧
          (indexEntryKey name value mine).length ≤ maxKeySize) →
        ∃ update ∈ updates, update.Claims name value mine := by
      rintro mine ⟨update, hmem, n, v, p, hclaims, hkey, hlen⟩
      obtain ⟨rfl, rfl, rfl⟩ := indexEntryKey_inj hlen hkey
      exact ⟨update, hmem, hclaims⟩
    rcases hfrom _ (indexEntryKey_rooted _ _ _) hheld with hmine | ⟨hmine, hmykept⟩
    · rcases hfrom _ (indexEntryKey_rooted _ _ _) hother with hyours | ⟨hyours, hyourkept⟩
      · obtain ⟨update, hmem, hclaims⟩ := hclaimed hmine
        exact (claims_agree hunique hentries other (hclaimed hyours)).2 update hmem primary hclaims
      · exact (hclash (hclaimed hmine) hyours hyourkept).symm
    · rcases hfrom _ (indexEntryKey_rooted _ _ _) hother with hyours | ⟨hyours, _⟩
      · exact hclash (hclaimed hyours) hmine hmykept
      · exact h.unique name value primary other hunique hmine hyours

end

end Calls

/-! ## Runs -/

variable {after engine : Engine} {call : IndexCall}

theorem Engine.KeepsIndexes.step (h : engine.KeepsIndexes) (hcount : engine.Counted)
    (hstep : engine.Called call after) : after.KeepsIndexes := by
  obtain ⟨levels, rows, hserves, hm, hindexed⟩ := h
  cases hstep with
  | refused _ hres =>
    have hserves' := hres.serves hserves
    obtain ⟨_, _, _, _, hvalues, hrest⟩ := hres
    rw [hrest] at hserves' ⊢
    exact ⟨levels, rows, hserves', (hm.mono hvalues).1, hindexed.owned, hindexed.unique⟩
  | done hrun =>
    cases call with
    | createIndex => exact hindexed.create hserves hm hrun
    | dropIndex => exact hindexed.drop hserves hm hcount hrun
    | writeIndexed =>
      obtain ⟨⟨results, _⟩, hwrite, rfl⟩ := map_eq_ok hrun
      obtain ⟨⟨⟩, huser, hwrite⟩ := bind_eq_ok.mp hwrite
      obtain ⟨_, _, hwrite⟩ := bind_eq_ok.mp hwrite
      exact hindexed.write hserves hm hcount (forM_user.mp huser) hwrite
    | writeIndexedDeferred =>
      obtain ⟨⟨results, _⟩, hwrite, rfl⟩ := map_eq_ok hrun
      obtain ⟨⟨⟩, huser, hwrite⟩ := bind_eq_ok.mp hwrite
      exact hindexed.write hserves hm hcount (forM_user.mp huser) hwrite

theorem opened_keepsIndexes (options : EngineOptions) : (Engine.opened options).KeepsIndexes := by
  have hnone : ∀ key, valueIn [] key = none := fun _ => rfl
  have hempty : ∀ b, (Engine.opened options).writeBack = some b → b.entries = [] := by
    intro b hb
    rw [Engine.opened] at hb
    split_ifs at hb
    cases hb
    rfl
  refine ⟨0, [], serves_of_empty fresh_denotes hempty (fun _ _ => rfl) ValueLog.whole_nil
    (forall_mem_nil _), atRest_mvcc PageTree.fresh, fun key _ hheld => ?_,
    nofun⟩
  rw [hnone] at hheld
  exact absurd hheld Bool.false_ne_true

/-- **UNIQUE**: from a new database, in either mode, after any calls with any updates, no unique
    index has entries of two primary keys under one value. -/
theorem unique_indexes_stay_unique {options : EngineOptions} {calls : List IndexCall}
    {engine : Engine}
    (hrun : Run Engine.Called (fun engine _ => engine.Counted)
      (Engine.opened options) calls engine) :
    ∃ levels rows, Serves true engine levels rows ∧ ∀ name value primary other,
      lookup name engine.indexes = some true →
      (valueIn rows (indexEntryKey name value primary)).isSome = true →
      (valueIn rows (indexEntryKey name value other)).isSome = true → primary = other := by
  obtain ⟨levels, rows, hserves, _, hindexed⟩ := hrun.invariant (I := Engine.KeepsIndexes)
    (fun h hcount hstep => h.step hcount hstep) (opened_keepsIndexes options)
  exact ⟨levels, rows, hserves, hindexed.unique⟩

/-- A call that is not refused. -/
def Engine.followCall (engine : Engine) (call : IndexCall) : Option Engine :=
  (engine.call call).toOption

theorem Engine.followCall_step (h : engine.followCall call = some after) :
    engine.Called call after :=
  .done (toOption_eq_some h)

/-- Two primary keys swap their values of a unique index in one batch. -/
theorem unique_after_swap :
    ∃ engine, Run Engine.Called (fun engine _ => engine.Counted)
      (Engine.opened ⟨1000, false⟩)
      [.createIndex [9] true,
        .writeIndexed [] [⟨[9], [1], none, some [5]⟩, ⟨[9], [2], none, some [6]⟩],
        .writeIndexedDeferred [] [⟨[9], [1], some [5], some [6]⟩, ⟨[9], [2], some [6], some [5]⟩]]
      engine ∧
      engine.lookupIndex [9] [5] 10 = .ok [[2]] ∧ engine.lookupIndex [9] [6] 10 = .ok [[1]] ∧
      ∃ levels rows, Serves true engine levels rows ∧ ∀ name value primary other,
        lookup name engine.indexes = some true →
        (valueIn rows (indexEntryKey name value primary)).isSome = true →
        (valueIn rows (indexEntryKey name value other)).isSome = true → primary = other := by
  refine exists_run_of Engine.followCall Engine.followCall_step
    (p := fun engine => engine.lookupIndex [9] [5] 10 = .ok [[2]] ∧
      engine.lookupIndex [9] [6] 10 = .ok [[1]]) (by decide +kernel) (fun engine hrun hlookups => ?_)
  exact ⟨hlookups.1, hlookups.2, unique_indexes_stay_unique hrun⟩

end Vyrn
