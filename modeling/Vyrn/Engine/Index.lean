import Vyrn.Engine.Retain
import Vyrn.PageTree.Scan

/-!
# Secondary indexes in a commit

An index is a set of entries under keys the engine keeps for itself, one for each value and
primary key. A batch that maintains indexes is an ordinary batch: the caller's operations with
the entries to delete and to put behind them, once the values of unique indexes are known to be
free (`writeIndexed_applies`).
-/

namespace Vyrn

open SortedMap List ByteString

/-! ## Scans over the tree and the buffer -/

/-- The merge of buffered states, which win, with rows of the tree, up to `limit` rows. -/
def mergeRows (limit : Nat) (buffered : List (Bytes × BufferedEntry))
    (rows : Rows) : Rows :=
  match limit, buffered, rows with
  | 0, _, _ => []
  | _ + 1, [], [] => []
  | limit + 1, [], row :: rows => row :: mergeRows limit [] rows
  | limit + 1, (key, entry) :: buffered, [] =>
    match entry.row with
    | some row => (key, row) :: mergeRows limit buffered []
    | none => mergeRows (limit + 1) buffered []
  | limit + 1, (key, entry) :: buffered, row :: rows =>
    if key ≤ row.1 then
      -- the tree's copy of the same key is superseded either way
      let rest := if row.1 = key then rows else row :: rows
      match entry.row with
      | some kept => (key, kept) :: mergeRows limit buffered rest
      | none => mergeRows (limit + 1) buffered rest
    else row :: mergeRows limit ((key, entry) :: buffered) rows
termination_by buffered.length + rows.length
decreasing_by
  all_goals simp only [length_cons]
  all_goals first
    | omega
    | (split_ifs
       · omega
       · rw [length_cons]
         omega)

def usizeMax : Nat := 2 ^ 64 - 1

/-- The start of the range is above its end. -/
def ScanRange.reversed (range : ScanRange) : Bool :=
  range.start.any (fun start => range.stop.any (fun stop => stop < start))

/-- The buffered entries of a range. Of a map with entries `BTreeMap::range` takes no reversed
    range. -/
def Overlay.range (buffer : Overlay) (range : ScanRange) :
    Except Error (List (Bytes × BufferedEntry)) :=
  if range.reversed && !buffer.isEmpty then
    .error (.panicked "range start is greater than range end in BTreeMap")
  else .ok (range.select buffer.entries)

def mergedScan (tree : PageTree) (buffer : Option Overlay) (range : ScanRange) (limit : Nat) :
    Except Error (Rows) :=
  match buffer.filter (fun buffer => !buffer.isEmpty) with
  | none => tree.scanSharedWithRevisions range limit
  | some buffer =>
    if limit = 0 then .ok []
    else do
      let inRange ← buffer.range range
      let deletes := (inRange.filter (fun e => e.2.value.isNone)).length
      let rows ← tree.scanSharedWithRevisions range (min (limit + deletes) usizeMax)
      return mergeRows limit inRange rows

def Engine.treeScan (engine : Engine) (start stop : Option Bytes) (limit : Nat) :
    Except Error (List (Bytes × Bytes)) := do
  let rows ← mergedScan engine.tree engine.writeBack ⟨start, stop, none⟩ limit
  return rows.map (fun row => (row.1, row.2.value))

/-! ## Index entries -/

structure IndexUpdate where
  index : Bytes
  primaryKey : Bytes
  oldValue : Option Bytes
  newValue : Option Bytes
  deriving DecidableEq, Repr

def validateIndexValue (value : Option Bytes) : Except Error Unit :=
  if value.any (fun value => 2 ^ 32 ≤ value.length) then .error .valueTooLarge else .ok ()

/-- `\0vyrn:index:entry:`, the length of the index's name and the name. -/
def indexEntryPrefix (name : Bytes) : Bytes :=
  internalPrefix ++ [105, 110, 100, 101, 120, 58, 101, 110, 116, 114, 121, 58] ++
    toBE 2 name.length ++ name

def indexValuePrefix (name value : Bytes) : Bytes :=
  indexEntryPrefix name ++ toBE 4 value.length ++ value

def indexEntryKey (name value primaryKey : Bytes) : Bytes :=
  indexValuePrefix name value ++ primaryKey

def decodeIndexPrimary (key start : Bytes) : Except Error Bytes :=
  if start.isPrefixOf key then do
    let primary := key.drop start.length
    validateKey primary
    return primary
  else .error (.corruptManifest "invalid index entry key")

/-- What is behind the name and the value is checked and returned. -/
theorem decodeIndexPrimary_key (name value primary : Bytes) :
    decodeIndexPrimary (indexEntryKey name value primary) (indexValuePrefix name value)
      = do validateKey primary; return primary := by
  rw [decodeIndexPrimary, indexEntryKey,
    if_pos (List.isPrefixOf_iff_prefix.mpr (List.prefix_append _ _)), List.drop_left]

def Engine.lookupIndex (engine : Engine) (name value : Bytes) (limit : Nat) :
    Except Error (List Bytes) :=
  if (lookup name engine.indexes).isNone then .error .indexNotFound
  else do
    validateIndexValue (some value)
    let start := indexValuePrefix name value
    let rows ← engine.treeScan (some start) (successor start) limit
    rows.mapM (fun row => decodeIndexPrimary row.1 start)

/-! ## A batch with index updates -/

def Engine.validateUpdate (engine : Engine) (validatePrimary : Bytes → Except Error Unit)
    (update : IndexUpdate) : Except Error Unit := do
  validatePrimary update.primaryKey
  validateIndexValue update.oldValue
  validateIndexValue update.newValue
  if (lookup update.index engine.indexes).isNone then throw .indexNotFound
  return ()

/-- The entries a batch deletes, collected before any claim on a value is judged. -/
def releasedEntries (updates : List IndexUpdate) : List (Bytes × Bytes × Bytes) :=
  updates.filterMap (fun update =>
    if update.oldValue = update.newValue then none
    else update.oldValue.map (fun old => (update.index, old, update.primaryKey)))

/-- Judges a claim on a value of a unique index: no other key of the batch may claim it, and no
    key the batch does not release it from may hold it. -/
def Engine.claimUnique (engine : Engine) (released : List (Bytes × Bytes × Bytes))
    (claims : List ((Bytes × Bytes) × Bytes)) (update : IndexUpdate) (new : Bytes) :
    Except Error (List ((Bytes × Bytes) × Bytes)) :=
  if (lookup update.index engine.indexes).getD false then
    if (lookup (update.index, new) claims).any (fun primary => primary ≠ update.primaryKey)
    then .error (.uniqueViolation update.index new)
    else do
      let existing ← engine.lookupIndex update.index new usizeMax
      if existing.any (fun primary => primary ≠ update.primaryKey &&
          !released.contains (update.index, new, primary)) then
        throw (.uniqueViolation update.index new)
      return ((update.index, new), update.primaryKey) :: claims
  else .ok claims

def IndexUpdate.removal (update : IndexUpdate) : List BatchOperation :=
  (update.oldValue.map (fun old =>
    .delete (indexEntryKey update.index old update.primaryKey))).toList

def Engine.indexOperations (engine : Engine) (released : List (Bytes × Bytes × Bytes)) :
    List ((Bytes × Bytes) × Bytes) → List IndexUpdate → Except Error (List BatchOperation)
  | _, [] => .ok []
  | claims, update :: rest =>
    if update.oldValue = update.newValue then engine.indexOperations released claims rest
    else
      match update.newValue with
      | none => do
        let others ← engine.indexOperations released claims rest
        return update.removal ++ others
      | some new => do
        let claims ← engine.claimUnique released claims update new
        let others ← engine.indexOperations released claims rest
        return update.removal ++
          .put (indexEntryKey update.index new update.primaryKey) [] :: others

def Engine.writeIndexedBatch (engine : Engine) (operations : List BatchOperation)
    (updates : List IndexUpdate) : Except Error (List BatchResult × Engine) := do
  updates.forM (engine.validateUpdate validateKey)
  let entries ← engine.indexOperations (releasedEntries updates) [] updates
  let (results, engine) ← engine.applyBatch (operations ++ entries)
  return (results.take operations.length, engine)

def Engine.writeIndexed (engine : Engine) (operations : List BatchOperation)
    (updates : List IndexUpdate) : Except Error (List BatchResult × Engine) := do
  operations.forM validateUserOperation
  updates.forM (engine.validateUpdate validateUserKey)
  engine.writeIndexedBatch operations updates

def Engine.writeBatch (engine : Engine) (operations : List BatchOperation) :
    Except Error (List BatchResult × Engine) := do
  operations.forM validateUserOperation
  engine.applyBatch operations

/-! ## What reaches the commit -/

/-- An operation on an index's entry: its key is the engine's own, and no tombstone. -/
def OnEntry (operation : BatchOperation) : Prop :=
  isInternal operation.key = true ∧ operation.FromCaller

variable {operation : BatchOperation}

theorem onEntry_of_key {name value primary : Bytes}
    (h : operation.key = indexEntryKey name value primary) : OnEntry operation := by
  rw [OnEntry, BatchOperation.FromCaller, h]
  exact ⟨rfl, rfl⟩

/-- An update is about the entry of its old value and about that of its new one. -/
def IndexUpdate.Names (update : IndexUpdate) (key : Bytes) : Prop :=
  ∃ value, (update.oldValue = some value ∨ update.newValue = some value) ∧
    key = indexEntryKey update.index value update.primaryKey

variable {update : IndexUpdate}

theorem onEntry_of_names (h : update.Names operation.key) : OnEntry operation := by
  obtain ⟨_, _, hkey⟩ := h
  exact onEntry_of_key hkey

/-- The entry operations of an update: none when it changes nothing. -/
def IndexUpdate.operations (update : IndexUpdate) : List BatchOperation :=
  if update.oldValue = update.newValue then []
  else update.removal ++ (update.newValue.map (fun new =>
    .put (indexEntryKey update.index new update.primaryKey) [])).toList

/-- The update puts an entry. -/
structure IndexUpdate.Claims (update : IndexUpdate) (name value primary : Bytes) : Prop where
  changes : update.oldValue ≠ update.newValue
  index : update.index = name
  new : update.newValue = some value
  primary : update.primaryKey = primary

/-- The update deletes an entry. -/
structure IndexUpdate.Releases (update : IndexUpdate) (name value primary : Bytes) : Prop where
  changes : update.oldValue ≠ update.newValue
  index : update.index = name
  old : update.oldValue = some value
  primary : update.primaryKey = primary

/-- An update writes the entries it claims and deletes those it releases. -/
theorem mem_operations :
    operation ∈ update.operations ↔
      (∃ name value primary, update.Claims name value primary ∧
        operation = .put (indexEntryKey name value primary) []) ∨
      ∃ name value primary, update.Releases name value primary ∧
        operation = .delete (indexEntryKey name value primary) := by
  rw [IndexUpdate.operations]
  constructor
  · intro hop
    split_ifs at hop with hsame
    · exact absurd hop not_mem_nil
    rcases mem_append.mp hop with hop | hop
    · rw [IndexUpdate.removal, Option.mem_toList] at hop
      obtain ⟨old, hold, rfl⟩ := Option.map_eq_some_iff.mp hop
      exact .inr ⟨_, old, _, ⟨hsame, rfl, hold, rfl⟩, rfl⟩
    · rw [Option.mem_toList] at hop
      obtain ⟨new, hnew, rfl⟩ := Option.map_eq_some_iff.mp hop
      exact .inl ⟨_, new, _, ⟨hsame, rfl, hnew, rfl⟩, rfl⟩
  · rintro (⟨_, value, _, ⟨hsame, rfl, hnew, rfl⟩, rfl⟩ |
      ⟨_, value, _, ⟨hsame, rfl, hold, rfl⟩, rfl⟩)
    · rw [if_neg hsame, hnew]
      exact mem_append_right _ (mem_singleton.mpr rfl)
    · rw [if_neg hsame, IndexUpdate.removal, hold]
      exact mem_append_left _ (mem_singleton.mpr rfl)

theorem operations_names (hop : operation ∈ update.operations) : update.Names operation.key := by
  rcases mem_operations.mp hop with ⟨_, value, _, ⟨_, rfl, hnew, rfl⟩, rfl⟩ |
    ⟨_, value, _, ⟨_, rfl, hold, rfl⟩, rfl⟩
  · exact ⟨value, .inr hnew, rfl⟩
  · exact ⟨value, .inl hold, rfl⟩

variable {updates : List IndexUpdate} {engine : Engine}

/-- What is judged in between does not show in the operations. -/
theorem indexOperations_eq {released : List (Bytes × Bytes × Bytes)} :
    ∀ {claims : List ((Bytes × Bytes) × Bytes)} {entries : List BatchOperation},
      engine.indexOperations released claims updates = .ok entries →
      entries = updates.flatMap IndexUpdate.operations := by
  induction updates with
  | nil =>
    rintro claims _ ⟨⟩
    rfl
  | cons update rest ih =>
    intro claims entries hrun
    rw [Engine.indexOperations] at hrun
    rw [flatMap_cons, IndexUpdate.operations]
    split_ifs at hrun ⊢ with hsame
    · exact ih hrun
    · cases hnew : update.newValue with
      | none =>
        rw [hnew] at hrun
        obtain ⟨others, hrest, hrun⟩ := bind_eq_ok.mp hrun
        cases hrun
        rw [ih hrest, Option.map_none, Option.toList_none, append_nil]
      | some =>
        rw [hnew] at hrun
        obtain ⟨claims', _, hrun⟩ := bind_eq_ok.mp hrun
        obtain ⟨others, hrest, hrun⟩ := bind_eq_ok.mp hrun
        cases hrun
        rw [ih hrest, Option.map_some, Option.toList_some, append_assoc, singleton_append]

variable {operations : List BatchOperation}

theorem forM_user : operations.forM validateUserOperation = .ok () ↔
    ∀ operation ∈ operations, isInternal operation.key = false := by
  rw [forM_eq_ok]
  simp [validateUserOperation]

/-- **INDEXED WRITES**: a batch with index updates commits the caller's operations with
    operations on the entries of its updates behind them. -/
theorem writeIndexed_applies {results : List BatchResult} {after : Engine}
    (hrun : engine.writeIndexed operations updates = .ok (results, after)) :
    ∃ entries answers, engine.applyBatch (operations ++ entries) = .ok (answers, after) ∧
      (∀ operation ∈ operations, isInternal operation.key = false) ∧
      (∀ update ∈ updates, engine.validateUpdate validateUserKey update = .ok ()) ∧
      ∀ operation ∈ entries, ∃ update ∈ updates, update.Names operation.key := by
  obtain ⟨_, huser, hrun⟩ := bind_eq_ok.mp hrun
  obtain ⟨_, hupdates, hrun⟩ := bind_eq_ok.mp hrun
  obtain ⟨_, _, hrun⟩ := bind_eq_ok.mp hrun
  obtain ⟨entries, hentries, hrun⟩ := bind_eq_ok.mp hrun
  obtain ⟨⟨answers, committed⟩, happly, hrun⟩ := bind_eq_ok.mp hrun
  cases hrun
  refine ⟨entries, answers, happly, forM_user.mp huser, forM_eq_ok.mp hupdates, fun operation hop => ?_⟩
  rw [indexOperations_eq hentries] at hop
  obtain ⟨update, hmem, hop⟩ := mem_flatMap.mp hop
  exact ⟨update, hmem, operations_names hop⟩

end Vyrn
