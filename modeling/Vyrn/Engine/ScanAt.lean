import Vyrn.Engine.Chronicle
import Vyrn.Lib.Candidates

/-!
# Scans and index lookups at a revision

A scan at a revision reads candidate keys one by one: the first rows of the tree, a few more than
asked for, and every key of which versions are kept. A row that is hidden at the revision was
written after it, and then versions of its key are kept (`Kept`), so that the number of kept keys is
room enough (**`scanAt_agrees`**). A replica keeps no versions, and a scan that is full of its
hidden rows ends too early (**`scanAt_cut_short`**).
-/

namespace Vyrn

open SortedMap List Transition ByteString History Candidates

variable {key name value start : Bytes} {state : Mvcc.State} {V : Type} {operation : BatchOperation}
  {engine : Engine} {revision : Nat} {kept : List Bytes} {range : ScanRange}

/-! ## The code -/

/-- `\0vyrn:doc-index:`, the one region of the reserved names that an index may use. -/
def documentIndexPrefix : Bytes :=
  internalPrefix ++ [100, 111, 99, 45, 105, 110, 100, 101, 120, 58]

def validateIndexName (name : Bytes) : Except Error Unit :=
  if name = [] then .error .emptyKey
  else if 2 ^ 16 - 1 < name.length then .error .keyTooLarge
  else if isInternal name && !documentIndexPrefix.isPrefixOf name then .error .reservedKey
  else .ok ()

def indexDefinitionKey (name : Bytes) : Bytes :=
  indexDefinitionPrefix ++ toBE 2 name.length ++ name

def Engine.valueAtInternal (engine : Engine) (key : Bytes) (revision : Nat) :
    Except Error (Option Bytes) := do
  let current ← engine.revision key
  if current.all (fun current => current ≤ revision) then engine.treeGet key
  else Mvcc.getAt engine.mvcc engine.mvccValues key revision

/-- Reads one candidate after the other until `missing` rows are found. -/
def readUpTo {α : Type} (read : Bytes → Except Error (Option α)) :
    Nat → List Bytes → Except Error (List α)
  | _, [] => .ok []
  | missing, key :: rest => do
    match ← read key with
    | none => readUpTo read missing rest
    | some row =>
      if missing = 1 then return [row]
      else do
        let rows ← readUpTo read (missing - 1) rest
        return row :: rows

def Engine.treeScanExcludingPrefix (engine : Engine) (range : ScanRange) (limit : Nat) :
    Except Error (List (Bytes × Bytes)) := do
  let rows ← mergedScan engine.tree engine.writeBack range limit
  return rows.map (fun row => (row.1, row.2.value))

/-- How many rows of the tree a scan at a revision looks at. -/
def Engine.candidateLimit (engine : Engine) (limit : Nat) : Nat :=
  min (limit + engine.mvcc.histories.length) usizeMax

def validateBound (bound : Option Bytes) : Except Error Unit :=
  match bound with
  | some key => validateUserKey key
  | none => .ok ()

def Engine.scanAt (engine : Engine) (start stop : Option Bytes) (limit revision : Nat) :
    Except Error (List (Bytes × Bytes)) := do
  engine.ensureHealthy
  validateBound start
  validateBound stop
  if start.any (fun start => stop.any (fun stop => stop < start)) then throw .invalidRange
  engine.ensureCovered revision
  if limit = 0 then return []
  let rows ← engine.treeScanExcludingPrefix ⟨start, stop, some internalPrefix⟩
    (engine.candidateLimit limit)
  let kept := engine.mvcc.keys.filter (fun key => !isInternal key &&
    start.all (fun start => start ≤ key) && stop.all (fun stop => key < stop))
  readUpTo (fun key => do
    let value ← engine.getAt key revision
    return value.map (fun value => (key, value))) limit (keySet (rows.map Prod.fst ++ kept))

/-- The histories of the keys that start with `start`. -/
def Mvcc.State.under (state : Mvcc.State) (start : Bytes) : List (Bytes × List Mvcc.Version) :=
  (state.histories.dropWhile (fun history => history.1 < start)).takeWhile
    (fun history => start.isPrefixOf history.1)

def Engine.lookupIndexAt (engine : Engine) (name value : Bytes) (limit revision : Nat) :
    Except Error (List Bytes) := do
  engine.ensureHealthy
  validateIndexName name
  validateIndexValue (some value)
  engine.ensureCovered revision
  let definition ← engine.valueAtInternal (indexDefinitionKey name) revision
  if definition = none then throw .indexNotFound
  if limit = 0 then return []
  let start := indexValuePrefix name value
  let rows ← engine.treeScan (some start) (successor start)
    (engine.candidateLimit limit)
  let kept := (engine.mvcc.under start).map Prod.fst
  readUpTo (fun key => do
    match ← engine.valueAtInternal key revision with
    | none => return none
    | some _ => do
      let primary ← decodeIndexPrimary key start
      return some primary) limit (keySet (rows.map Prod.fst ++ kept))

/-! ## Reading candidates -/

theorem readUpTo_ok {α : Type} {read : Bytes → Except Error (Option α)} {shown : Bytes → Option α}
    {keys : List Bytes} {missing : Nat} (hpos : 0 < missing)
    (hread : ∀ key ∈ keys, read key = .ok (shown key)) :
    readUpTo read missing keys = .ok ((keys.filterMap shown).take missing) := by
  induction keys generalizing missing with
  | nil => rw [readUpTo, filterMap_nil, take_nil]
  | cons key rest ih =>
    have hrest := fun k hk => hread k (mem_cons_of_mem _ hk)
    rw [readUpTo, hread key mem_cons_self, ok_bind, filterMap_cons]
    cases hshown : shown key with
    | none => exact ih hpos hrest
    | some =>
      dsimp only
      split_ifs with hone
      · rw [hone]
        rfl
      · obtain ⟨missing, rfl⟩ := Nat.exists_eq_add_of_lt hpos
        rw [ih (by omega) hrest, ok_bind, zero_add, Nat.add_sub_cancel, take_succ_cons]
        rfl

/-! ## The keys under a string -/

/-- In an ordered map the keys that start with a string stand together. -/
theorem takeWhile_prefixed {m : List (Bytes × V)} (hs : Sorted m) :
    (m.dropWhile (fun e => e.1 < start)).takeWhile (fun e => start.isPrefixOf e.1)
      = m.filter (fun e => start.isPrefixOf e.1) := by
  have hle : ∀ {e : Bytes × V}, start.isPrefixOf e.1 = true → start ≤ e.1 :=
    fun h => le_of_isPrefix (List.isPrefixOf_iff_prefix.mp h)
  rw [(BinarySearch.takeWhile_eq_filter (hs.front_lt start)).2,
    (BinarySearch.takeWhile_eq_filter ?_).1, filter_filter]
  · refine filter_congr (fun e _ => ?_)
    cases hstart : start.isPrefixOf e.1 with
    | false => rfl
    | true => simpa using hle hstart
  · -- what lies between the string and a key that starts with it starts with it too
    refine pairwise_filter.mpr (hs.imp (fun {a b} hlt ha _ hb => ?_))
    have hfrom : start ≤ a.1 := by simpa using ha
    refine List.isPrefixOf_iff_prefix.mpr ((prefix_iff_lt_successor hfrom).mpr (fun stop hstop => ?_))
    exact hlt.trans ((prefix_iff_lt_successor (hle hb)).mp
      (List.isPrefixOf_iff_prefix.mp hb) stop hstop)

theorem Mvcc.mem_under (hs : Sorted state.histories) {history : Bytes × List Mvcc.Version} :
    history ∈ state.under start ↔ history ∈ state.histories ∧ start <+: history.1 := by
  rw [Mvcc.State.under, takeWhile_prefixed hs, mem_filter, List.isPrefixOf_iff_prefix]

/-! ## Reading one key at a revision -/

section Reads

variable {ordered : Bool} {engine : Engine} {levels : Nat} {rows : Rows}
  {revision : Nat}

/-- What a read at a revision shows. -/
def Engine.visible (engine : Engine) (revision : Nat) (key : Bytes) : Option Bytes :=
  (engine.valueAtInternal key revision).toOption.join

theorem mem_keys_of_versions (h : state.versions key ≠ []) : key ∈ state.keys := by
  rw [Mvcc.State.versions] at h
  cases hrow : lookup key state.histories with
  | none =>
    rw [hrow] at h
    exact absurd rfl h
  | some =>
    obtain ⟨row, hmem, rfl⟩ := lookup_isSome.mp (by rw [hrow]; rfl)
    exact mem_map_of_mem hmem

section

variable (h : Serves ordered engine levels rows) (hd : levels ≤ maxTreeDepth)
  (hm : Mvcc.WellFormed engine.mvcc engine.mvccValues) (hhealthy : engine.poisoned = false)
  (hcov : engine.mvcc.coveredThrough ≤ revision)
include h hd hm hhealthy hcov

/-- A read at a revision; what it shows is live or in the history. -/
theorem valueAtInternal_ok (hkey : validateKey key = .ok ()) :
    engine.valueAtInternal key revision = .ok (engine.visible revision key) ∧
      (∀ row, lookup key rows = some row → engine.visible revision key = none →
        revision < row.revision ∨ engine.mvcc.versions key ≠ []) ∧
      (engine.visible revision key ≠ none →
        (lookup key rows).isSome ∨ engine.mvcc.versions key ≠ []) := by
  have hok := ensureHealthy_ok hhealthy
  obtain ⟨current, hrev, hcurrent⟩ : ∃ current, engine.revision key = .ok current ∧
      ∀ r ∈ current, r ∈ (engine.mvcc.versions key).getLast?.map Prod.fst ∨
        r ∈ (lookup key rows).map Versioned.revision ∨ lookup key rows = none := by
    rw [Engine.revision, hok, ok_bind, hkey, ok_bind]
    rw [(h.reads hd key).2, ok_bind, (h.reads hd (tombstoneKey key)).2, ok_bind]
    refine ⟨_, rfl, fun r hr => ?_⟩
    cases hrow : lookup key rows with
    | none => exact .inr (.inr rfl)
    | some row =>
      rw [hrow] at hr
      cases hlast : (engine.mvcc.versions key).getLast?.map Prod.fst with
      | none =>
        rw [hlast] at hr
        exact .inr (.inl hr)
      | some last =>
        rw [hlast] at hr
        obtain rfl : max last row.revision = r := Option.some.inj hr
        rcases max_choice last row.revision with hmax | hmax
        · exact .inl (congrArg some hmax.symm)
        · exact .inr (.inl (congrArg some hmax.symm))
  have hsome : ∀ r, r ∈ (engine.mvcc.versions key).getLast?.map Prod.fst →
      engine.mvcc.versions key ≠ [] := by
    rintro r hr hnil
    rw [hnil] at hr
    cases hr
  by_cases hold : current.all (fun current => current ≤ revision) = true
  · have hread : engine.valueAtInternal key revision
        = .ok ((lookup key rows).map Versioned.value) := by
      rw [Engine.valueAtInternal, hrev, ok_bind, if_pos hold, (h.reads hd key).1]
    have hvisible : engine.visible revision key = (lookup key rows).map Versioned.value := by
      rw [Engine.visible, hread]
      rfl
    rw [hvisible]
    refine ⟨hread, fun row hrow hnone => ?_, fun hne => .inl ?_⟩
    · rw [hrow] at hnone
      cases hnone
    · rw [← Option.isSome_map, Option.isSome_iff_ne_none]
      exact hne
  · -- the key was written later, so only its versions count
    obtain ⟨r, rfl, hlater⟩ : ∃ r, current = some r ∧ revision < r := by
      cases current with
      | none => exact absurd rfl hold
      | some r => exact ⟨r, rfl, not_le.mp (fun hle => hold (decide_eq_true hle))⟩
    have hread : engine.valueAtInternal key revision = .ok (valueAt
        (Mvcc.historyOf engine.mvcc engine.mvccValues key) revision) := by
      rw [Engine.valueAtInternal, hrev, ok_bind, if_neg hold, Mvcc.getAt_ok hm key hcov]
    have hvisible : engine.visible revision key = valueAt
        (Mvcc.historyOf engine.mvcc engine.mvccValues key) revision := by
      rw [Engine.visible, hread]
      rfl
    rw [hvisible]
    refine ⟨hread, fun row hrow _ => ?_, fun hne => .inr (fun hnil => hne ?_)⟩
    · rcases hcurrent r rfl with hlast | hlive | hnone
      · exact .inr (hsome r hlast)
      · rw [hrow] at hlive
        exact .inl (Option.some.inj hlive ▸ hlater)
      · cases hnone.symm.trans hrow
    · rw [Mvcc.historyOf, hnil]
      rfl

/-- **CANDIDATES**: the first rows of a range with the kept keys of the range show what all of them
    show, up to the limit. -/
theorem candidates_shown (hcount : rows.length ≤ usizeMax)
    (hnoted : ∀ row ∈ rows, range.admits row.1 = true → revision < row.2.revision → engine.mvcc.versions row.1 ≠ [])
    (hvalid : ∀ key ∈ rows.map Prod.fst ++ engine.mvcc.keys, range.admits key = true → validateKey key = .ok ())
    (hkept : ∀ key, key ∈ kept ↔ key ∈ engine.mvcc.keys ∧ range.admits key = true) (limit : Nat) :
    let candidates := keySet ((((range.select rows).take (engine.candidateLimit limit)).map
      Prod.fst) ++ kept)
    ∃ all : List Bytes, all.Pairwise (· < ·) ∧
      (∀ key, key ∈ all ↔
        key ∈ rows.map Prod.fst ++ engine.mvcc.keys ∧ range.admits key = true) ∧
      (∀ key ∈ candidates, key ∈ all) ∧
      (Candidates.shown (engine.visible revision) candidates).take limit
        = (Candidates.shown (engine.visible revision) all).take limit := by
  intro candidates
  have hsorted := h.sorted
  have hreads := fun {key : Bytes} (hkey : validateKey key = .ok ()) =>
    valueAtInternal_ok h hd hm hhealthy hcov hkey
  let live := (range.select rows).map Prod.fst
  have hlive : ∀ key, key ∈ live ↔ key ∈ rows.map Prod.fst ∧ range.admits key = true := by
    intro key
    rw [← mem_filter, filter_map]
    rfl
  have hlives : live.Pairwise (· < ·) := pairwise_map.mpr (hsorted.filter _)
  -- the bound of the counter is never reached
  have hlimit : live.take (limit + engine.mvcc.histories.length)
      = ((range.select rows).take (engine.candidateLimit limit)).map Prod.fst := by
    have hshort : (range.select rows).length ≤ usizeMax :=
      (filter_sublist.length_le).trans hcount
    rw [← map_take, Engine.candidateLimit]
    refine congrArg _ ?_
    rcases le_total (limit + engine.mvcc.histories.length) usizeMax with hle | hle
    · rw [min_eq_left hle]
    · rw [min_eq_right hle, take_of_length_le hshort, take_of_length_le (hshort.trans hle)]
  have hmem : ∀ key, key ∈ candidates ↔
      key ∈ live.take (limit + engine.mvcc.histories.length) ∨ key ∈ kept := by
    intro key
    rw [mem_keySet, mem_append, hlimit]
  refine ⟨keySet (live ++ kept), keySet_pairwise _, fun key => ?_, fun key hkey => ?_, ?_⟩
  · rw [mem_keySet, mem_append, mem_append, hlive, hkept]
    tauto
  · exact mem_keySet.mpr (mem_append.mpr (((hmem key).mp hkey).imp mem_of_mem_take id))
  · refine take_shown hlives (keySet_pairwise _) (keySet_pairwise _) hmem
      (fun key => by rw [mem_keySet, mem_append]) ?_
    -- a hidden row is a kept key
    have hsub : live.filter (fun key => (engine.visible revision key).isNone) ⊆
        engine.mvcc.keys := by
      intro key hkey
      obtain ⟨hkey, hnone⟩ := mem_filter.mp hkey
      obtain ⟨hmem', hadmits⟩ := (hlive key).mp hkey
      obtain ⟨row, hrow, rfl⟩ := mem_map.mp hmem'
      refine mem_keys_of_versions ?_
      rcases (hreads (hvalid row.1 (mem_append_left _ hmem') hadmits)).2.1 row.2
          ((lookup_eq_some hsorted).mpr hrow) (Option.isNone_iff_eq_none.mp hnone) with hlater | hne
      · exact hnoted row hrow hadmits hlater
      · exact hne
    refine le_trans (subperm_of_subset ((hlives.filter _).imp ne_of_lt) hsub).length_le ?_
    rw [Mvcc.State.keys, length_map]

end

end Reads

/-! ## The keys an engine can read -/

/-- `\0vyrn:index:entry:`, under which all index entries are. -/
def indexEntryRoot : Bytes :=
  internalPrefix ++ [105, 110, 100, 101, 120, 58, 101, 110, 116, 114, 121, 58]

/-- The primary key of an index entry: what is behind the name and the value, each of which stands
    behind its length. -/
def primaryOf (key : Bytes) : Bytes :=
  let named := key.drop indexEntryRoot.length
  let valued := named.drop (2 + fromBE (named.take 2))
  valued.drop (4 + fromBE (valued.take 4))

/-- An index entry has a primary key. -/
def EntryWhole (key : Bytes) : Prop := indexEntryRoot <+: key → primaryOf key ≠ []

instance (key : Bytes) : Decidable (EntryWhole key) :=
  inferInstanceAs (Decidable (_ → _))

theorem indexValuePrefix_eq (name value : Bytes) :
    indexValuePrefix name value = indexEntryRoot ++ (toBE 2 name.length ++
      (name ++ (toBE 4 value.length ++ value))) := by
  rw [indexValuePrefix, indexEntryPrefix, indexEntryRoot]
  simp only [append_assoc]

theorem indexEntryKey_eq (name value primary : Bytes) :
    indexEntryKey name value primary = indexEntryRoot ++ (toBE 2 name.length ++
      (name ++ (toBE 4 value.length ++ (value ++ primary)))) := by
  rw [indexEntryKey, indexValuePrefix_eq]
  simp only [append_assoc]

/-- In a key that can be stored, the lengths of the parts fit their fields. -/
theorem indexEntryKey_lengths {primary : Bytes}
    (h : (indexEntryKey name value primary).length ≤ maxKeySize) :
    name.length < 256 ^ 2 ∧ value.length < 256 ^ 4 := by
  rw [indexEntryKey_eq] at h
  simp only [length_append] at h
  have hroot : 0 < indexEntryRoot.length := by decide
  have hmax : maxKeySize = 256 ^ 2 := rfl
  have hfour : (256 : Nat) ^ 2 < 256 ^ 4 := by decide
  constructor <;> omega

theorem primaryOf_append (hname : name.length < 256 ^ 2) (hvalue : value.length < 256 ^ 4)
    (primary : Bytes) : primaryOf (indexValuePrefix name value ++ primary) = primary := by
  rw [indexValuePrefix_eq, primaryOf]
  simp only [append_assoc, drop_left]
  rw [drop_measured hname, drop_measured hvalue]

/-- The keys that the engine reads at a revision: they can be stored, and an index entry can be
    decoded. -/
structure ReadableKey (key : Bytes) : Prop where
  valid : validateKey key = .ok ()
  whole : EntryWhole key

theorem not_prefix_of (h : start.isPrefixOf key = false) : ¬ start <+: key :=
  fun hstart => Bool.false_ne_true (h.symm.trans (List.isPrefixOf_iff_prefix.mpr hstart))

theorem BatchOperation.FromClient.whole (h : operation.FromClient)
    (hvalid : validateKey operation.key = .ok ()) : EntryWhole operation.key := by
  rcases h with huser | ⟨update, hprimary, value, _, hkey⟩
  · rintro ⟨rest, hroot⟩
    rw [← hroot] at huser
    cases huser
  · rw [hkey] at hvalid ⊢
    obtain ⟨hname, hvalue⟩ := indexEntryKey_lengths (validateKey_ok hvalid).2
    rw [indexEntryKey, EntryWhole, primaryOf_append hname hvalue]
    rintro - hnil
    rw [hnil] at hprimary
    cases hprimary

theorem BatchOperation.Valid.validateKey (h : operation.Valid) :
    validateKey operation.key = .ok () := by
  cases operation with
  | put =>
    obtain ⟨_, hkey, _⟩ := bind_eq_ok.mp h
    exact hkey
  | delete => exact h

/-! ## Rows without versions -/

/-- Under the code's own writers every index entry has a primary key. A record that a replica takes
    over after `revision` puts only keys of which versions are kept. -/
@[reducible] def Database.Keeps (revision : Nat) (db : Database) (event : Event) : Prop :=
  db.Sound event ∧ match event with
    | .commit operations _ => ∀ operation ∈ operations, EntryWhole operation.key
    | .replicate record => (∀ operation ∈ record.operations, EntryWhole operation.key) ∧
        (record.lsn ≤ revision ∨ ∀ operation ∈ record.operations, operation.value?.isSome = true →
          isVersionedKey operation.key = true → db.engine.mvcc.versions operation.key ≠ [])
    | _ => True

/-- A row that is newer than `revision` and newer than what the engine has given up has kept
    versions. All keys can be read. -/
structure Kept (revision : Nat) (engine : Engine) (rows : Rows) : Prop where
  noted : ∀ row ∈ rows, isVersionedKey row.1 = true → ¬ tombstonePrefix <+: row.1 →
    engine.mvcc.coveredThrough < row.2.revision → revision < row.2.revision →
    Mvcc.historyOf engine.mvcc engine.mvccValues row.1 ≠ []
  rows : ∀ row ∈ rows, tombstonePrefix <+: row.1 ∨ ReadableKey row.1
  keys : ∀ key ∈ engine.mvcc.keys, ReadableKey key

section Kept

variable {revision : Nat} {c c' : Chronicle} {event : Event}
  {rows rows' : Rows}

theorem historyOf_eq_nil {values : Bytes} :
    Mvcc.historyOf state values key = [] ↔ state.versions key = [] :=
  map_eq_nil_iff

theorem foldl_push_ne_nil {r : Nat} {values : List (Option V)} {history : List (Nat × Option V)}
    (h : history ≠ [] ∨ values ≠ []) : values.foldl (push r) history ≠ [] := by
  by_cases hvalues : values = []
  · rw [hvalues]
    exact h.resolve_right (fun hne => hne hvalues)
  · obtain ⟨kept, _, value, heq⟩ := foldl_push_eq hvalues history
    rw [heq]
    exact concat_ne_nil _ _

theorem withPreImage_ne_nil {oldest : Nat} {history : List (Nat × Option Bytes)}
    (h : history ≠ []) (before : Option Versioned) : withPreImage oldest history before ≠ [] := by
  rw [withPreImage]
  cases before with
  | none => exact h
  | some =>
    rw [Option.map_some, keepBefore]
    split_ifs
    · exact append_ne_nil_of_left_ne_nil h _
    · exact h

theorem tombstonePrefix_tombstoneKey (key : Bytes) : tombstonePrefix <+: tombstoneKey key :=
  prefix_append _ _

/-- The rows of a replay can be read when the operations can. -/
theorem readable_replayAll {lsn : Nat} {operations : List BatchOperation}
    (hrows : ∀ row ∈ rows, tombstonePrefix <+: row.1 ∨ ReadableKey row.1)
    (hoperations : ∀ operation ∈ operations, ReadableKey operation.key) :
    ∀ row ∈ replayAll lsn rows operations, tombstonePrefix <+: row.1 ∨ ReadableKey row.1 := by
  intro row hrow
  rcases mem_replayAll hrow with hrow | ⟨_, hput | ⟨key, _, hkey, _⟩⟩
  · exact hrows row hrow
  · exact .inr (hoperations _ hput)
  · exact .inl (hkey ▸ tombstonePrefix_tombstoneKey key)

theorem Chronicled.rows_le (h : Chronicled c rows) :
    ∀ row ∈ rows, row.2.revision ≤ c.db.engine.lastLsn := by
  obtain ⟨base, levels, treeRows, hholds, hbase, _⟩ := h.holds
  exact hholds.revisions hbase

/-- Nothing is to be kept of an engine that has given up everything so far. -/
theorem Kept.of_covered (hrows : ∀ row ∈ rows, tombstonePrefix <+: row.1 ∨ ReadableKey row.1)
    (hkeys : ∀ key ∈ engine.mvcc.keys, ReadableKey key)
    (hcovered : ∀ row ∈ rows, row.2.revision ≤ engine.mvcc.coveredThrough) :
    Kept revision engine rows :=
  ⟨fun row hrow _ _ hlt _ => absurd (hcovered row hrow) (not_le.mpr hlt), hrows, hkeys⟩

theorem Kept.same {before after : Engine} (h : Kept revision before rows)
    (hversions : SameVersions before after) : Kept revision after rows := by
  refine ⟨fun row hrow => ?_, h.rows, ?_⟩
  · rw [hversions.covered, hversions.history]
    exact h.noted row hrow
  · rw [hversions.keys]
    exact h.keys

/-- A step that meets `Keeps` leaves what a read at the revision needs. -/
theorem Kept.step (h : Chronicled c rows) (hk : Kept revision c.db.engine rows)
    (hfit : c.db.Keeps revision event) (h' : Chronicled c' rows')
    (heffect : Database.Effect c.db.engine c'.db.engine event rows rows') :
    Kept revision c'.db.engine rows' := by
  obtain ⟨base, levels, treeRows, hholds, hbase, _⟩ := h.holds
  cases heffect with
  | commit hhands hproper hacc hlog hretains hkeys hrows =>
    rename_i operations combined
    have hreadable : ∀ operation ∈ combined, ReadableKey operation.key := by
      intro operation hop
      refine ⟨(hacc.valid operation hop).validateKey, forall_withChangeLog
        (p := fun operation => EntryWhole operation.key) hacc.changeLog (fun operation hop => ?_)
        (fun _ _ hroot => absurd hroot (not_prefix_of rfl)) operation hop⟩
      rcases hhands with ⟨indexes, rfl⟩ | ⟨_, hclient⟩
      · exact hfit.2 operation hop
      · exact (hclient operation hop).whole (hacc.valid_operations operation hop).validateKey
    have hrows' := hrows ▸ readable_replayAll hk.rows hreadable
    have hkeys' : ∀ key ∈ c'.db.engine.mvcc.keys, ReadableKey key := by
      intro key hkey
      rcases hkeys key hkey with hkey | ⟨operation, hop, rfl⟩
      · exact hk.keys key hkey
      · exact hreadable operation hop
    rw [Retains] at hretains
    cases hopen : c.db.engine.oldestActiveSnapshot with
    | none =>
      -- nobody reads at an older revision, and the commit gives them all up
      rw [hopen] at hretains
      refine .of_covered hrows' hkeys' (fun row hrow => ?_)
      rw [hretains.1, ← hlog.lsn]
      exact (h'.rows_le row hrow).trans (le_max_right _ _)
    | some =>
      -- a snapshot is open: what the batch replaces is noted first
      rw [hopen] at hretains
      refine ⟨fun row hrow hversioned htomb hcov hrev => ?_, hrows', hkeys'⟩
      rw [hretains.2]
      rw [hretains.1] at hcov
      rw [hrows, ← replayAll_effective] at hrow
      refine foldl_push_ne_nil ?_
      rcases mem_replayAll hrow with hold | ⟨_, hput | ⟨key, _, hkey, _⟩⟩
      · exact .inl (withPreImage_ne_nil (hk.noted row hold hversioned htomb hcov hrev) _)
      · exact .inr (stagedValues_ne_nil.mpr ⟨hversioned, _, hput, rfl⟩)
      · exact absurd (hkey ▸ tombstonePrefix_tombstoneKey key) htomb
  | replicate hhands _ hvalid _ _ _ _ hversions _ hrows =>
    subst hhands hrows
    obtain ⟨hwhole, hkeeps⟩ := hfit.2
    have hreadable := fun operation hop => ReadableKey.mk
      (hvalid.2 operation hop).validateKey (hwhole operation hop)
    refine ⟨fun row hrow hversioned htomb hcov hrev => ?_, readable_replayAll hk.rows hreadable, ?_⟩
    · rw [hversions.history]
      rw [hversions.covered] at hcov
      rcases mem_replayAll hrow with hold | ⟨hnew, hput | ⟨key, _, hkey, _⟩⟩
      · exact hk.noted row hold hversioned htomb hcov hrev
      · rcases hkeeps with hle | hkept
        · exact absurd hle (not_le.mpr (hnew ▸ hrev))
        · exact fun hnil => hkept _ hput rfl hversioned (historyOf_eq_nil.mp hnil)
      · exact absurd (hkey ▸ tombstonePrefix_tombstoneKey key) htomb
    · rw [hversions.keys]
      exact hk.keys
  | register _ hversions _ hrows
  | quiet _ hversions _ hrows =>
    subst hrows
    exact hk.same hversions
  | collect hcollected hrows =>
    subst hrows
    have hkeys : ∀ key ∈ c'.db.engine.mvcc.keys, ReadableKey key := by
      intro key hkey
      rw [hcollected] at hkey
      exact hk.keys key (collect_keys _ _ _ key hkey)
    have hcov := collected_covered hcollected
    cases hopen : c.db.engine.oldestActiveSnapshot with
    | none =>
      refine .of_covered hk.rows hkeys (fun row hrow => ?_)
      rw [hcov, hopen]
      exact (h.rows_le row hrow).trans (le_max_right _ _)
    | some oldest =>
      refine ⟨fun row hrow hversioned htomb hlt hrev => ?_, hk.rows, hkeys⟩
      rw [hcov] at hlt
      have hne := hk.noted row hrow hversioned htomb ((le_max_left _ _).trans_lt hlt) hrev
      rw [collected_history hcollected hholds.mvcc hopen]
      exact fun hnil => absurd (drop_eq_nil_iff.mp hnil) (not_le.mpr (keepFrom_lt oldest hne))
  | reopen _ _ hempty hcovered _ _ hrows =>
    subst hrows
    refine .of_covered hk.rows (fun key hkey => ?_) (fun row hrow => ?_)
    · rw [Mvcc.State.keys, hempty] at hkey
      exact absurd hkey not_mem_nil
    · rw [hcovered]
      exact (h'.rows_le row hrow).trans (le_max_right _ _)

end Kept

/-! ## Scans and lookups -/

/-- The rows of the tree and of the buffer are counted in 64 bits. -/
def Engine.Counted (engine : Engine) : Prop :=
  engine.tree.len + ((engine.writeBack.map (fun buffer => buffer.entries.length)).getD 0) ≤ usizeMax

theorem length_updateAll_le {us : List (Bytes × Option Versioned)} {m : Rows} (hm : Sorted m) :
    (updateAll m us).length ≤ m.length + us.length := by
  induction us generalizing m with
  | nil => exact le_rfl
  | cons u us ih =>
    have hone : (update m u).length ≤ m.length + 1 := by
      have hlen := length_update hm u
      split_ifs at hlen <;> omega
    have hrest := ih (hm.update u)
    rw [updateAll_cons, length_cons]
    omega

section Scans

variable {db : Database} {levels revision : Nat} {base treeRows rows : Rows}
  {ordered : Bool} {engine : Engine}

theorem Serves.counted (h : Serves ordered engine levels rows) (hcount : engine.Counted) :
    rows.length ≤ usizeMax ∧ engine.tree.len ≤ usizeMax := by
  obtain ⟨treeRows, hden, hmerged⟩ := h.holds
  have hlen := hden.len
  refine ⟨le_trans ?_ hcount, le_trans (Nat.le_add_right _ _) hcount⟩
  rw [hmerged, hlen, overlaid]
  refine le_trans (length_updateAll_le hden.sorted) (Nat.add_le_add_left (le_of_eq ?_) _)
  cases engine.writeBack with
  | none => rfl
  | some => exact length_map _

theorem Holds.healthy_ok (h : Holds db levels base treeRows rows) :
    db.engine.ensureHealthy = .ok () :=
  ensureHealthy_ok h.healthy

theorem prefix_forward (start : Bytes) :
    ScanRange.reversed ⟨some start, successor start, none⟩ = false := by
  refine reversed_eq_false.mpr ?_
  rintro _ ⟨⟩ stop hstop
  exact (lt_successor hstop).le

theorem Serves.scan_ok (h : Serves ordered engine levels rows) (hd : levels ≤ maxTreeDepth)
    (hcount : engine.Counted) {range : ScanRange} (hrange : range.reversed = false) (limit : Nat) :
    (do
      let rows ← mergedScan engine.tree engine.writeBack range limit
      return rows.map (fun row => (row.1, row.2.value)) : Except Error (List (Bytes × Bytes)))
      = .ok (((range.select rows).take limit).map (fun row => (row.1, row.2.value))) := by
  obtain ⟨treeRows, hden, hmerged⟩ := h.holds
  rw [mergedScan_ok hden hd (fun b hb => (h.buffered b hb).1) (h.counted hcount).2 hrange, ← hmerged]
  rfl

theorem ensureCovered_ok (h : engine.mvcc.coveredThrough ≤ revision) :
    engine.ensureCovered revision = .ok () := by
  rw [Engine.ensureCovered, if_neg (not_lt.mpr h)]

theorem validateKey_of_valueAtInternal {value : Option Bytes}
    (h : engine.valueAtInternal key revision = .ok value) : validateKey key = .ok () := by
  obtain ⟨_, hrevision, _⟩ := bind_eq_ok.mp h
  obtain ⟨_, _, hrevision⟩ := bind_eq_ok.mp hrevision
  obtain ⟨⟨⟩, hkey, _⟩ := bind_eq_ok.mp hrevision
  exact hkey

section

variable (h : Holds db levels base treeRows rows) (hd : levels ≤ maxTreeDepth)
  (hk : Kept revision db.engine rows) (hcount : db.engine.Counted)
  (hcov : db.engine.mvcc.coveredThrough ≤ revision)
include h hd hk hcount hcov

/-- In a range of keys whose versions are kept, the candidates show what can be read. -/
theorem Holds.shown_ok
    (hrange : ∀ {key}, range.admits key = true →
      isVersionedKey key = true ∧ ¬ tombstonePrefix <+: key)
    (hkept : ∀ key, key ∈ kept ↔ key ∈ db.engine.mvcc.keys ∧ range.admits key = true)
    (limit : Nat) :
    let candidates := keySet ((((range.select rows).take (db.engine.candidateLimit limit)).map
      Prod.fst) ++ kept)
    ∃ entries : List (Bytes × Bytes), Sorted entries ∧
      (∀ key value, (key, value) ∈ entries ↔ range.admits key = true ∧
        db.engine.valueAtInternal key revision = .ok (some value)) ∧
      (∀ key ∈ candidates, range.admits key = true ∧ ReadableKey key ∧
        db.engine.valueAtInternal key revision = .ok (db.engine.visible revision key)) ∧
      (Candidates.shown (db.engine.visible revision) candidates).take limit
        = entries.take limit := by
  intro candidates
  have hreadable : ∀ key ∈ rows.map Prod.fst ++ db.engine.mvcc.keys, range.admits key = true →
      ReadableKey key := by
    intro key hkey hadmits
    rcases mem_append.mp hkey with hkey | hkey
    · obtain ⟨row, hrow, rfl⟩ := mem_map.mp hkey
      exact (hk.rows row hrow).resolve_left (hrange hadmits).2
    · exact hk.keys key hkey
  have hreads := fun {key : Bytes} (hkey : validateKey key = .ok ()) =>
    valueAtInternal_ok h.serves hd h.mvcc h.healthy hcov hkey
  obtain ⟨all, hall, hmem, hsub, hshown⟩ := candidates_shown h.serves hd h.mvcc h.healthy hcov
    (h.serves.counted hcount).1 (fun row hrow hadmits hlater hnil => hk.noted row hrow
      (hrange hadmits).1 (hrange hadmits).2 (hcov.trans_lt hlater) hlater
      (historyOf_eq_nil.mpr hnil))
    (fun key hkey hadmits => (hreadable key hkey hadmits).valid) hkept limit
  refine ⟨_, shown_sorted _ hall, fun key value => ?_, fun key hkey => ?_, hshown⟩
  · rw [mem_shown, hmem]
    constructor
    · rintro ⟨⟨hkey, hadmits⟩, hvisible⟩
      exact ⟨hadmits, by rw [(hreads (hreadable key hkey hadmits).valid).1, hvisible]⟩
    · rintro ⟨hadmits, hread⟩
      obtain ⟨hvalue, _, hfound⟩ := hreads (validateKey_of_valueAtInternal hread)
      have hvisible : db.engine.visible revision key = some value :=
        Except.ok.inj (hvalue.symm.trans hread)
      refine ⟨⟨mem_append.mpr ?_, hadmits⟩, hvisible⟩
      rcases hfound (by rw [hvisible]; exact Option.some_ne_none _) with hlive | hversions
      · obtain ⟨row, hrow, rfl⟩ := lookup_isSome.mp hlive
        exact .inl (mem_map_of_mem hrow)
      · exact .inr (mem_keys_of_versions hversions)
  · obtain ⟨hin, hadmits⟩ := (hmem key).mp (hsub key hkey)
    have hread := hreadable key hin hadmits
    exact ⟨hadmits, hread, (hreads hread.valid).1⟩

/-- **SCAN AT**: the rows in range that `getAt` finds, in order. -/
theorem Holds.scanAt_ok {start stop : Option Bytes} (hstart : validateBound start = .ok ())
    (hstop : validateBound stop = .ok ()) (horder : ∀ a ∈ start, ∀ b ∈ stop, a ≤ b) (limit : Nat) :
    ∃ entries : List (Bytes × Bytes), Sorted entries ∧
      (∀ key value, (key, value) ∈ entries ↔
        (start.all (fun start => start ≤ key) && stop.all (fun stop => key < stop)) = true ∧
          db.engine.getAt key revision = .ok (some value)) ∧
      db.engine.scanAt start stop limit revision = .ok (entries.take limit) := by
  have hcovered := ensureCovered_ok hcov
  let range : ScanRange := ⟨start, stop, some internalPrefix⟩
  -- a read of a user key is a read at the revision
  have hget : ∀ {key}, validateKey key = .ok () → isInternal key = false →
      db.engine.getAt key revision = db.engine.valueAtInternal key revision := by
    intro key hkey huser
    rw [Engine.getAt, h.healthy_ok, ok_bind, validateUserKey, hkey, ok_bind, huser, hcovered]
    rfl
  have hkept : ∀ key, key ∈ db.engine.mvcc.keys.filter (fun key => !isInternal key &&
      start.all (fun start => start ≤ key) && stop.all (fun stop => key < stop)) ↔
      key ∈ db.engine.mvcc.keys ∧ range.admits key = true := by
    intro key
    rw [mem_filter, userRange_admits]
    cases isInternal key <;> simp
  obtain ⟨entries, hsorted, hmem, hreads, hshown⟩ := h.shown_ok hd hk hcount hcov
    (fun hadmits => ⟨isVersionedKey_user (userRange_admits.mp hadmits).2,
      fun hdeleted => hdeleted.elim (fun _ h =>
        tombstoneKey_ne_user (userRange_admits.mp hadmits).2 _ h.symm)⟩) hkept limit
  refine ⟨entries, hsorted, fun key value => ?_, ?_⟩
  · rw [hmem, userRange_admits]
    constructor
    · rintro ⟨⟨hbounds, huser⟩, hread⟩
      exact ⟨hbounds, (hget (validateKey_of_valueAtInternal hread) huser).trans hread⟩
    · rintro ⟨hbounds, hread⟩
      obtain ⟨_, _, hrest⟩ := bind_eq_ok.mp hread
      obtain ⟨⟨⟩, huserkey, _⟩ := bind_eq_ok.mp hrest
      obtain ⟨hok, huser⟩ := validateUserKey_ok huserkey
      exact ⟨⟨hbounds, huser⟩, (hget hok huser).symm.trans hread⟩
  · have hforward := (@reversed_eq_false ⟨start, stop, some internalPrefix⟩).mpr horder
    have hrange : ¬ start.any (fun start => stop.any (fun stop => stop < start)) = true :=
      Bool.eq_false_iff.mp hforward
    rw [Engine.scanAt, h.healthy_ok, ok_bind, hstart, ok_bind, hstop, ok_bind, if_neg hrange,
      hcovered, ok_bind]
    split_ifs with hzero
    · rw [hzero]
      rfl
    · rw [← hshown, Engine.treeScanExcludingPrefix]
      rw [h.serves.scan_ok hd hcount hforward, ok_bind, map_map]
      refine readUpTo_ok (Nat.pos_of_ne_zero hzero) (fun key hkey => ?_)
      obtain ⟨hadmits, hreadable, hread⟩ := hreads key hkey
      rw [hget hreadable.valid (userRange_admits.mp hadmits).2, hread]
      rfl

end

theorem isVersionedKey_entry (h : indexEntryRoot <+: key) :
    isVersionedKey key = true ∧ ¬ tombstonePrefix <+: key := by
  obtain ⟨rest, rfl⟩ := h
  exact ⟨rfl, not_prefix_of rfl⟩

theorem indexValuePrefix_rooted (name value : Bytes) :
    indexEntryRoot <+: indexValuePrefix name value := by
  rw [indexValuePrefix_eq]
  exact prefix_append _ _

/-- An entry that can be read decodes to what is behind the index's name and value. -/
theorem ReadableKey.decodeIndexPrimary {primary : Bytes}
    (h : ReadableKey (indexEntryKey name value primary)) (hname : name.length < 256 ^ 2)
    (hvalue : value.length < 256 ^ 4) :
    decodeIndexPrimary (indexEntryKey name value primary) (indexValuePrefix name value)
      = .ok primary := by
  have hroot : indexEntryRoot <+: indexEntryKey name value primary :=
    (indexValuePrefix_rooted name value).trans (prefix_append _ _)
  have hne : primary ≠ [] := by
    have hprimary := h.whole hroot
    rwa [indexEntryKey, primaryOf_append hname hvalue] at hprimary
  have hlen : ¬ maxKeySize < primary.length := by
    have hlong := (validateKey_ok h.valid).2
    rw [indexEntryKey, length_append] at hlong
    omega
  rw [decodeIndexPrimary_key, validateKey, if_neg hne, if_neg hlen]
  rfl

/-- **INDEX AT**: the primaries whose entries the revision has, in order. -/
theorem Holds.lookupIndexAt_ok (h : Holds db levels base treeRows rows) (hd : levels ≤ maxTreeDepth)
    (hk : Kept revision db.engine rows) (hcount : db.engine.Counted)
    (hcov : db.engine.mvcc.coveredThrough ≤ revision) (hname : validateIndexName name = .ok ())
    (hvalue : validateIndexValue (some value) = .ok ()) {definition : Bytes} (hdefined :
      db.engine.valueAtInternal (indexDefinitionKey name) revision = .ok (some definition))
    (limit : Nat) :
    ∃ primaries : List Bytes, primaries.Pairwise (· < ·) ∧
      (∀ primary, primary ∈ primaries ↔ ∃ entry, db.engine.valueAtInternal
        (indexEntryKey name value primary) revision = .ok (some entry)) ∧
      db.engine.lookupIndexAt name value limit revision = .ok (primaries.take limit) := by
  have hnamed : name.length < 256 ^ 2 := by
    rw [validateIndexName] at hname
    split_ifs at hname
    omega
  have hvalued : value.length < 256 ^ 4 := by
    rw [validateIndexValue, Option.any_some] at hvalue
    split_ifs at hvalue with hlong
    exact not_le.mp (fun hle => hlong (decide_eq_true hle))
  let front := indexValuePrefix name value
  let range : ScanRange := ⟨some front, successor front, none⟩
  have hadmits : ∀ {key}, range.admits key = true ↔ front <+: key := prefixRange_admits
  have hkept : ∀ key, key ∈ (db.engine.mvcc.under front).map Prod.fst ↔
      key ∈ db.engine.mvcc.keys ∧ range.admits key = true := by
    intro key
    rw [hadmits, ← List.isPrefixOf_iff_prefix, ← mem_filter, Mvcc.State.keys,
      filter_map, Mvcc.State.under, takeWhile_prefixed h.mvcc.sorted]
    rfl
  obtain ⟨entries, hsorted, hmem, hreads, hshown⟩ := h.shown_ok hd hk hcount hcov
    (fun hkey => isVersionedKey_entry ((indexValuePrefix_rooted name value).trans
      (hadmits.mp hkey))) hkept limit
  -- every shown key is an entry of the value, and what is behind it is the primary key
  have hsplit : ∀ e ∈ entries, e.1 = front ++ e.1.drop front.length := by
    intro e he
    obtain ⟨primary, hprimary⟩ := hadmits.mp ((hmem e.1 e.2).mp he).1
    rw [← hprimary, drop_left]
  refine ⟨entries.map (fun e => e.1.drop front.length), ?_, fun primary => ?_, ?_⟩
  · refine pairwise_map.mpr (hsorted.imp_of_mem (fun {a b} ha hb hlt => ?_))
    rw [hsplit a ha, hsplit b hb] at hlt
    exact not_le.mp (fun hle => absurd hlt (not_lt.mpr ((append_le_append_iff front).mpr hle)))
  · constructor
    · intro hprimary
      obtain ⟨e, he, rfl⟩ := mem_map.mp hprimary
      refine ⟨e.2, ?_⟩
      rw [indexEntryKey, ← hsplit e he]
      exact ((hmem e.1 e.2).mp he).2
    · rintro ⟨entry, hread⟩
      exact mem_map.mpr ⟨(indexEntryKey name value primary, entry),
        (hmem _ _).mpr ⟨hadmits.mpr (prefix_append _ _), hread⟩, drop_left⟩
  · rw [Engine.lookupIndexAt, h.healthy_ok, ok_bind, hname, ok_bind, hvalue, ok_bind,
      ensureCovered_ok hcov, ok_bind, hdefined, ok_bind, if_neg (Option.some_ne_none _)]
    by_cases hzero : limit = 0
    · rw [hzero]
      rfl
    · have hscan : db.engine.treeScan (some front) (successor front)
          (db.engine.candidateLimit limit) = .ok (((range.select rows).take
            (db.engine.candidateLimit limit)).map (fun row => (row.1, row.2.value))) :=
        h.serves.scan_ok hd hcount (prefix_forward front) _
      have hcut := congrArg (map (fun e => e.1.drop front.length)) hshown
      rw [map_take, map_take (l := entries), Candidates.shown, map_filterMap] at hcut
      rw [if_neg hzero]
      refine Eq.trans ?_ (congrArg Except.ok hcut)
      dsimp only
      rw [hscan, ok_bind, map_map]
      refine readUpTo_ok (Nat.pos_of_ne_zero hzero) (fun key hkey => ?_)
      obtain ⟨hfront, hreadable, hread⟩ := hreads key hkey
      rw [hread, ok_bind]
      cases db.engine.visible revision key with
      | none => rfl
      | some =>
        obtain ⟨primary, rfl⟩ := hadmits.mp hfront
        have hdecode := hreadable.decodeIndexPrimary hnamed hvalued
        rw [indexEntryKey] at hdecode
        rw [hdecode, Option.map_some, Option.map_some, drop_left]
        rfl

end Scans

/-- The invariant over whole runs. -/
theorem kept_of_run {events : List Event} {db : Database}
    (hrun : Run Database.Step (Database.Keeps revision) Database.empty events db) :
    ∃ base levels treeRows rows, Holds db levels base treeRows rows ∧
      Kept revision db.engine rows := by
  obtain ⟨log, hrun⟩ := chronicle_of_run hrun
  obtain ⟨rows, h, hk⟩ := chronicled_of_run (fun c rows => Kept revision c.db.engine rows)
    (fun hfit => hfit.1) (fun h hk hfit h' _ heffect _ => Kept.step h hk hfit h' heffect)
    ⟨forall_mem_nil _, forall_mem_nil _,
      forall_mem_nil _⟩ hrun
  obtain ⟨base, levels, treeRows, hholds, _⟩ := h.holds
  exact ⟨base, levels, treeRows, rows, hholds, hk⟩

/-- **SCANS AT A REVISION**: at every revision the engine answers for, a scan returns the first
    entries of all user keys of the range that a read at the revision finds, in the order of keys,
    and a lookup the first primary keys whose entry is found by the same rule. -/
theorem scanAt_agrees {revision : Nat} {events : List Event} {db : Database}
    (hrun : Run Database.Step (Database.Keeps revision) Database.empty events db)
    (hshallow : Shallow db.engine.tree) (hcount : db.engine.Counted)
    (hcov : db.engine.mvcc.coveredThrough ≤ revision) (limit : Nat) :
    (∀ start stop : Option Bytes, validateBound start = .ok () → validateBound stop = .ok () →
      (∀ a ∈ start, ∀ b ∈ stop, a ≤ b) →
      ∃ entries : List (Bytes × Bytes), Sorted entries ∧
        (∀ key value, (key, value) ∈ entries ↔
          (start.all (fun start => start ≤ key) && stop.all (fun stop => key < stop)) = true ∧
            db.engine.getAt key revision = .ok (some value)) ∧
        db.engine.scanAt start stop limit revision = .ok (entries.take limit)) ∧
    ∀ name value : Bytes, validateIndexName name = .ok () →
      validateIndexValue (some value) = .ok () →
      (db.engine.valueAtInternal (indexDefinitionKey name) revision = .ok none →
        db.engine.lookupIndexAt name value limit revision = .error .indexNotFound) ∧
      ∀ definition,
        db.engine.valueAtInternal (indexDefinitionKey name) revision = .ok (some definition) →
        ∃ primaries : List Bytes, primaries.Pairwise (· < ·) ∧
          (∀ primary, primary ∈ primaries ↔ ∃ entry, db.engine.valueAtInternal
            (indexEntryKey name value primary) revision = .ok (some entry)) ∧
          db.engine.lookupIndexAt name value limit revision = .ok (primaries.take limit) := by
  obtain ⟨base, levels, treeRows, rows, h, hk⟩ := kept_of_run hrun
  have hd := h.denotes.shallow_iff.mp hshallow
  refine ⟨fun start stop hstart hstop horder =>
      h.scanAt_ok hd hk hcount hcov hstart hstop horder limit,
    fun name value hname hvalue => ⟨fun hnone => ?_, fun definition hdefined =>
      h.lookupIndexAt_ok hd hk hcount hcov hname hvalue hdefined limit⟩⟩
  rw [Engine.lookupIndexAt, h.healthy_ok, ok_bind, hname, ok_bind, hvalue, ok_bind,
    ensureCovered_ok hcov, ok_bind, hnone]
  rfl

instance (revision : Nat) (db : Database) (event : Event) :
    Decidable (db.Keeps revision event) := by
  apply @Event.casesOn _ event <;> intros <;> infer_instance

instance (engine : Engine) : Decidable engine.Counted := inferInstanceAs (Decidable (_ ≤ _))

/-- A row is moved from key 1 to key 2 under a snapshot: reads at the snapshot show the old one. -/
theorem scanAt_agrees_moved :
    ∃ db,
      Run Database.Step (Database.Keeps 2) Database.empty
        [.commit [.put (indexDefinitionKey [9]) [0]] [([9], false)],
          .perform (.writeIndexed [.put [1] [7]] [⟨[9], [1], none, some [5]⟩]),
          .perform .registerSnapshot,
          .perform (.writeIndexed [.delete [1], .put [2] [8]]
            [⟨[9], [1], some [5], none⟩, ⟨[9], [2], none, some [5]⟩])] db ∧
      (∃ entries, db.engine.scanAt none none 1 2 = .ok (take 1 entries) ∧
        ([1], [7]) ∈ entries) ∧
      ∃ primaries, db.engine.lookupIndexAt [9] [5] 1 2 = .ok (take 1 primaries) ∧
        [1] ∈ primaries := by
  refine exists_run_of Database.follow Database.follow_step (p := fun db =>
    (do
      let count ← db.engine.tree.countExcluding internalPrefix
      return decide (db.engine.Counted ∧ db.engine.mvcc.coveredThrough ≤ 2 ∧
        db.engine.getAt [1] 2 = Except.ok (some [7]) ∧
        db.engine.valueAtInternal (indexDefinitionKey [9]) 2 = Except.ok (some [0]) ∧
        db.engine.valueAtInternal (indexEntryKey [9] [5] [1]) 2
          = Except.ok (some []))) = .ok true) (by decide +kernel) (fun db hrun hfacts => ?_)
  obtain ⟨count, hread, hfacts⟩ := bind_eq_ok.mp hfacts
  obtain ⟨hcount, hcov, hget, hdefined, hentry⟩ := of_decide_eq_true (Except.ok.inj hfacts)
  obtain ⟨base, levels, treeRows, rows, h, _⟩ := kept_of_run hrun
  have hshallow := h.denotes.shallow_iff.mpr (h.denotes.within_of_count hread)
  obtain ⟨hscan, hlookup⟩ := scanAt_agrees hrun hshallow hcount hcov 1
  obtain ⟨entries, _, hmem, hok⟩ := hscan none none rfl rfl nofun
  obtain ⟨primaries, _, hmem', hok'⟩ := (hlookup [9] [5] rfl rfl).2 [0] hdefined
  exact ⟨⟨entries, hok, (hmem [1] [7]).mpr ⟨rfl, hget⟩⟩, primaries, hok',
    (hmem' [1]).mpr ⟨[], hentry⟩⟩

/-- A replica keeps no versions: at revision 1 key 2 is read, but the scan's only candidate is
    key 1, which is newer. -/
theorem scanAt_cut_short :
    ∃ db,
      Run Database.Step Database.Sound Database.empty
        [.replicate ⟨1, [.put [2] [7]], 0, 0⟩, .replicate ⟨2, [.put [1] [8]], 0, 0⟩] db ∧
      db.engine.mvcc.coveredThrough ≤ 1 ∧ 1 ≤ db.engine.lastLsn ∧
      db.engine.getAt [2] 1 = .ok (some [7]) ∧ db.engine.scanAt none none 1 1 = .ok [] := by
  refine exists_run Database.follow Database.follow_step ?_
  decide +kernel

end Vyrn
