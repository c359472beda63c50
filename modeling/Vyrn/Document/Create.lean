import Vyrn.Document.Collection

/-!
# Creating a collection

`collection` commits the definition of each declared field on its own, and compares the whole stored
set with the requested one the next time. The map of definitions is loaded again from the rows at
every opening (`Loaded`).

Main results: `createIndex_judged`, `Database.Catalogued.reopen`, `collection_all_or_nothing_iff`,
`half_created_collection`.
-/

namespace Vyrn

open SortedMap List Transition ByteString Catalog

/-! ## The code that is cut short -/

/-- Where a call of `collection` leaves the database when it does not return its collection: it
    fails, or the process stops, or a commit cannot be written, after some of the commits. -/
inductive Database.Interrupted (db : Database) (utf8 : Bytes → Bool) (name : Bytes)
    (indexes : List IndexDefinition) : Database → Prop where
  | failed {error : Error} {after : Engine} :
      db.engine.collection utf8 name indexes = (.error error, after) →
      Interrupted db utf8 name indexes { db with engine := after }
  | stopped {definitions : List (Bytes × Bool)} {after : Engine} (commits : Nat) :
      db.engine.checkCollection utf8 name indexes = .ok (definitions, true) →
      db.engine.createFields name (definitions.take commits) = (.ok (), after) →
      Interrupted db utf8 name indexes { db with engine := after }

/-- The stored definitions are those of before or the requested ones, and the same call does what it
    would have done. -/
def Database.AllOrNothing (db : Database) (utf8 : Bytes → Bool) (name : Bytes)
    (indexes : List IndexDefinition) : Prop :=
  ∀ after, db.Interrupted utf8 name indexes after →
    (storedIndexes utf8 after.engine.indexes name = storedIndexes utf8 db.engine.indexes name ∨
      ∃ definitions, declare [] indexes = .ok definitions ∧
        storedIndexes utf8 after.engine.indexes name = .ok definitions) ∧
    (after.engine.collection utf8 name indexes).1 = (db.engine.collection utf8 name indexes).1

/-! ## The condition -/

/-- The requested definitions are well formed, and the collection has neither definitions nor
    documents. -/
structure Engine.Creates (engine : Engine) (utf8 : Bytes → Bool) (name : Bytes)
    (indexes : List IndexDefinition) (definitions : List (Bytes × Bool)) : Prop where
  declared : declare [] indexes = .ok definitions
  unstored : storedIndexes utf8 engine.indexes name = .ok []
  undocumented : engine.scanInternal (some (collectionRoot name))
    (successor (collectionRoot name)) 1 = .ok []

/-- A creation of two fields or more, of which the first can be stored. -/
def Engine.Splits (engine : Engine) (utf8 : Bytes → Bool) (name : Bytes)
    (indexes : List IndexDefinition) : Prop :=
  ∃ first second rest, engine.Creates utf8 name indexes (first :: second :: rest) ∧
    (indexDefinitionKey (documentName name first.1)).length ≤ maxKeySize ∧
    engine.lastLsn + 1 < 2 ^ 64

/-! ## Stored definitions -/

/-- Whether a stored definition is of a unique index. -/
def definitionFlag : Bytes → Option Bool
  | [0] => some false
  | [1] => some true
  | _ => none

theorem definitionFlag_of (unique : Bool) :
    definitionFlag [if unique then 1 else 0] = some unique := by
  cases unique <;> rfl

theorem indexDefinitionKey_eq (name : Bytes) :
    indexDefinitionKey name = indexDefinitionPrefix ++ segment name := by
  rw [indexDefinitionKey, segment, append_assoc]

theorem decodeIndexDefinition_eq (rest : Bytes) (row : Versioned) :
    decodeIndexDefinition (indexDefinitionPrefix ++ rest, row)
      = if rest.length < 2 ∨ fromBE (rest.take 2) ≠ rest.length - 2 then
          .error (.corruptManifest "invalid index definition name")
        else match definitionFlag row.value with
          | some unique => .ok (rest.drop 2, unique)
          | none => .error (.corruptManifest "invalid index definition value") := by
  rw [decodeIndexDefinition, if_pos (List.isPrefixOf_iff_prefix.mpr (prefix_append _ _)), drop_left]
  dsimp only
  split_ifs
  · rfl
  · split
    · next hvalue => rw [hvalue, definitionFlag]
    · next hvalue => rw [hvalue, definitionFlag]
    · next hzero hone => rw [definitionFlag.eq_3 _ hzero hone]

/-- The definition keys are exactly those that decode to a name. -/
theorem definitions_exact :
    Exact (fun key => indexDefinitionPrefix <+: key) decodeIndexDefinition
      indexDefinitionKey (fun name => name.length < 256 ^ 2)
      (fun row => definitionFlag row.value) := by
  refine ⟨?_, fun _ => ?_, fun hn hn' heq => ?_⟩
  · rintro ⟨key, row⟩ name unique ⟨rest, hkey⟩
    dsimp only at hkey ⊢
    rw [← hkey, decodeIndexDefinition_eq, indexDefinitionKey_eq, append_cancel_left_eq]
    constructor
    · intro h
      split_ifs at h with hshort
      obtain ⟨hle, hlen⟩ := not_or.mp hshort
      cases hflag : definitionFlag row.value with
      | none =>
        rw [hflag] at h
        cases h
      | some =>
        rw [hflag] at h
        cases h
        obtain ⟨hrest, hbound⟩ := @ByteString.measured_iff 2 rest (rest.drop 2) |>.mpr
          ⟨not_lt.mp hle, by omega, rfl⟩
        exact ⟨hrest, hbound, rfl⟩
    · rintro ⟨hrest, hbound, hflag⟩
      obtain ⟨_, _, hname⟩ := measured_iff.mp ⟨hrest, hbound⟩
      rw [if_neg (by omega), hflag, ← hname]
  · rw [indexDefinitionKey_eq]
    exact prefix_append _ _
  · rw [indexDefinitionKey_eq, indexDefinitionKey_eq, append_cancel_left_eq] at heq
    exact (segment_inj hn hn').mp heq

/-- The map of the indexes that the rows define. -/
def Loaded (rows : Rows) (indexes : List (Bytes × Bool)) : Prop :=
  load decodeIndexDefinition
    (rows.filter (fun row => indexDefinitionPrefix.isPrefixOf row.1)) = .ok indexes

variable {levels : Nat} {unique : Bool}

section Stored

variable {rows rows' : Rows} {indexes : List (Bytes × Bool)}

theorem definitions_under :
    ∀ row ∈ rows.filter (fun row => indexDefinitionPrefix.isPrefixOf row.1),
      indexDefinitionPrefix <+: row.1 :=
  fun _ hrow => List.isPrefixOf_iff_prefix.mp (mem_filter.mp hrow).2

theorem lookup_definition (rows : Rows) (name : Bytes) :
    (lookup (indexDefinitionKey name)
        (rows.filter (fun row => indexDefinitionPrefix.isPrefixOf row.1))).bind
          (fun row => definitionFlag row.value)
      = (valueIn rows (indexDefinitionKey name)).bind definitionFlag := by
  have hunder : indexDefinitionPrefix.isPrefixOf (indexDefinitionKey name) = true := by
    rw [List.isPrefixOf_iff_prefix, indexDefinitionKey_eq]
    exact prefix_append _ _
  rw [lookup_filter (fun key => indexDefinitionPrefix.isPrefixOf key), hunder, if_pos rfl, valueIn,
    Option.bind_map]
  rfl

/-- One more definition is one more index. -/
theorem Loaded.put (h : Loaded rows indexes) (hs : Sorted rows) (hs' : Sorted rows')
    (hdefined : Defined rows') {name : Bytes} (hname : name.length < 256 ^ 2)
    (hvalue : ∀ other : Bytes, other.length < 256 ^ 2 → valueIn rows' (indexDefinitionKey other)
      = if other = name then some [if unique then 1 else 0]
        else valueIn rows (indexDefinitionKey other)) :
    Loaded rows' (SortedMap.put name unique indexes) := by
  obtain ⟨_, hsorted, hlook, hvalid⟩ :=
    (load_iff definitions_exact (hs.filter _) definitions_under).mp h
  refine (load_iff definitions_exact (hs'.filter _) definitions_under).mpr
    ⟨fun row hrow => ?_, hsorted.put _ _, fun other hother => ?_, fun other hsome => ?_⟩
  · obtain ⟨⟨other, flag⟩, hdecode⟩ :=
      hdefined row (mem_of_mem_filter hrow) (definitions_under row hrow)
    exact ⟨other, flag, (definitions_exact.decode_iff (definitions_under row hrow)).mp hdecode⟩
  · rw [lookup_definition, hvalue other hother, lookup_put]
    by_cases heq : other = name
    · rw [if_pos heq, if_pos heq]
      exact (definitionFlag_of unique).symm
    · rw [if_neg heq, if_neg heq, hlook other hother, lookup_definition]
  · rw [lookup_put] at hsome
    split_ifs at hsome with heq
    · exact heq ▸ hname
    · exact hvalid other hsome

/-- What opening loads from a tree. -/
theorem loadIndexes_loaded {ordered : Bool} {tree : PageTree}
    (hden : Denotes ordered tree levels rows) (hd : levels ≤ maxTreeDepth)
    (hcount : rows.length ≤ usizeMax) (hload : loadIndexes tree = .ok indexes) :
    Loaded rows indexes := by
  let range : ScanRange :=
    ⟨some indexDefinitionPrefix, successor indexDefinitionPrefix, none⟩
  have hselect : (range.select rows).take usizeMax
      = rows.filter (fun row => indexDefinitionPrefix.isPrefixOf row.1) := by
    have hle : (range.select rows).length ≤ usizeMax := (length_filter_le _ _).trans hcount
    rw [take_of_length_le hle, ScanRange.select]
    refine filter_congr (fun row _ => ?_)
    rw [Bool.eq_iff_iff, List.isPrefixOf_iff_prefix]
    exact prefixRange_admits
  rw [loadIndexes, (scan_denotes hden hd _ _).1, ok_bind, hselect] at hload
  exact hload

end Stored

/-! ## Creating an index -/

/-- A definition is under its own root only. -/
theorem indexDefinitionKey_ne {name other : Bytes}
    (h : indexDefinitionPrefix.isPrefixOf other = false) : indexDefinitionKey name ≠ other := by
  rintro rfl
  cases h.symm.trans (show indexDefinitionPrefix.isPrefixOf (indexDefinitionKey name) = true
    from rfl)

/-- An engine that can read and write its tree. -/
structure Engine.Ready (engine : Engine) (levels : Nat) (rows : Rows) :
    Prop where
  serves : Serves true engine levels rows
  mvcc : Mvcc.WellFormed engine.mvcc engine.mvccValues
  healthy : engine.poisoned = false
  shallow : levels ≤ maxTreeDepth

section Create

variable {engine after : Engine} {levels : Nat} {rows : Rows} {name : Bytes}
  {unique : Bool}

/-- The one operation of a creation. -/
def definitionPut (name : Bytes) (unique : Bool) : BatchOperation :=
  .put (indexDefinitionKey name) [if unique then 1 else 0]

theorem definitionPut_key : (definitionPut name unique).key = indexDefinitionKey name := rfl

theorem definitionPut_defines (hname : name.length < 256 ^ 2) :
    (definitionPut name unique).Proper := by
  refine ⟨rfl, fun _ => ?_⟩
  have hdecode : decodeIndexDefinition (indexDefinitionKey name, ⟨[if unique then 1 else 0], 0⟩)
      = .ok (name, unique) := by
    exact (definitions_exact.decode_iff (definitions_exact.encode_under hname)).mpr
      ⟨rfl, hname, definitionFlag_of unique⟩
  rw [hdecode]
  rfl

/-- Writing a definition fails only by its size or the LSN. -/
theorem applyBatch_definition (h : engine.Ready levels rows) :
    (engine.applyBatch [definitionPut name unique]).map (fun _ => ()) = (do
      validateOperation (definitionPut name unique)
      let _ ← engine.nextLsn
      return ()) := by
  have hhealthy := ensureHealthy_ok h.healthy
  cases hvalid : validateOperation (definitionPut name unique) with
  | error =>
    rw [Engine.applyBatch, hhealthy, ok_bind, if_neg (cons_ne_nil _ _), forM_eq_forM, forM_cons,
      hvalid]
    rfl
  | ok =>
    have hall : ∀ operation ∈ [definitionPut name unique], operation.Valid :=
      forall_mem_singleton.mpr hvalid
    rw [ok_bind]
    by_cases hlsn : engine.lastLsn + 1 < 2 ^ 64
    · -- the batch is accepted as it stands
      have hkey := (validateKey_ok (BatchOperation.Valid.validateKey hvalid)).2
      have hmax : maxKeySize = 2 ^ 16 := rfl
      have hacc : Accepts engine rows [definitionPut name unique]
          [definitionPut name unique] := by
        refine ⟨h.healthy, ?_, hall, forall_mem_singleton.mpr rfl, hlsn, checkRecord_ok_iff.mpr ?_⟩
        · -- the change log does not speak of definitions
          rw [Engine.withChangeLog, nextLsn_ok hlsn]
          split_ifs <;> rfl
        have hpayload : payloadLen (effective (engine.lastLsn + 1) rows [definitionPut name unique])
            = opHeaderLen + (definitionPut name unique).key.length + 1 := rfl
        rw [hpayload, recordHeaderLen, recordFooterLen, opHeaderLen]
        omega
      obtain ⟨results, committed, _, hrun, _⟩ :=
        applyBatch_serves h.serves h.mvcc (.inl h.shallow) hacc
      rw [hrun, nextLsn_ok hlsn]
      rfl
    · -- the sequence is exhausted, and the plan or the change log says so
      have hnext : engine.nextLsn = .error (.io "WAL sequence number exhausted") := by
        rw [Engine.nextLsn, if_pos (not_lt.mp hlsn)]
      have hplan : engine.planBatch [definitionPut name unique]
          = .error (.io "WAL sequence number exhausted") := by
        rw [planBatch_eq h.serves (.inl h.shallow), hnext, error_bind]
      rw [Engine.applyBatch, hhealthy, ok_bind, if_neg (cons_ne_nil _ _), forM_validate hall, ok_bind,
        Engine.withChangeLog, hnext]
      split_ifs
      · rw [ok_bind, hplan]
        rfl
      · rfl

/-- **JUDGED**: an engine that can read and write creates an index or not by the name, the map and
    the last sequence number. -/
theorem createIndex_judged (h : engine.Ready levels rows) :
    (engine.createIndex name unique).map (fun _ => ()) = (do
      validateIndexName name
      if (lookup name engine.indexes).isSome then throw .indexExists
      validateOperation (definitionPut name unique)
      let _ ← engine.nextLsn
      return ()) := by
  rw [Engine.createIndex]
  cases validateIndexName name with
  | error => rfl
  | ok =>
    rw [ok_bind, ok_bind]
    by_cases hexists : (lookup name engine.indexes).isSome = true
    · rw [if_pos hexists, if_pos hexists]
      rfl
    · have happly := @applyBatch_definition engine levels rows name unique h
      rw [if_neg hexists, if_neg hexists]
      refine Eq.trans ?_ happly
      rw [definitionPut]
      cases engine.applyBatch [.put (indexDefinitionKey name) [if unique then 1 else 0]] <;> rfl

end Create

/-! ## Databases whose map is the stored one -/

/-- The database holds a map whose definitions are those of the engine. -/
def Database.Catalogued (db : Database) : Prop :=
  ∃ levels base treeRows rows, Holds db levels base treeRows rows ∧
    Loaded rows db.engine.indexes ∧ db.Tip

section Catalogued

variable {db : Database} {after : Engine} {name field : Bytes} {unique : Bool}

theorem Database.Catalogued.sorted (h : db.Catalogued) : Sorted db.engine.indexes := by
  obtain ⟨_, _, _, _, _, hloaded, _⟩ := h
  exact load_sorted hloaded

/-- **DEFINE**: creating an index stores what it adds to the map. -/
theorem Database.Catalogued.create (h : db.Catalogued)
    (hrun : db.engine.createIndex name unique = .ok after) :
    Database.Catalogued { db with engine := after } ∧
      after.indexes = put name unique db.engine.indexes := by
  obtain ⟨levels, base, treeRows, rows, hholds, hloaded, htip⟩ := h
  obtain ⟨hvalid, _, results, committed, happly, rfl⟩ := createIndex_form hrun
  have hname : name.length < 256 ^ 2 := by
    rw [validateIndexName] at hvalid
    split_ifs at hvalid
    omega
  have hproper : ∀ operation ∈ [definitionPut name unique], operation.Proper :=
    forall_mem_singleton.mpr (definitionPut_defines hname)
  obtain ⟨base', levels', treeRows', _, hafter, _, htip', _⟩ := hholds.turn_applyBatch htip
    (.inl ⟨db.engine.indexes, rfl⟩) hproper happly (put name unique db.engine.indexes)
  obtain ⟨_, rows', hserves, _, _, hvalue⟩ := applyBatch_rows hholds.serves hholds.mvcc
    (fun operation hop => (hproper operation hop).1) happly
  obtain rfl := hserves.rows_unique (hafter.serves.congr rfl rfl rfl)
  refine ⟨⟨levels', base', treeRows', _, hafter, ?_, htip'⟩, rfl⟩
  refine hloaded.put hholds.serves.sorted hserves.sorted hafter.defined hname
    (fun other hother => ?_)
  rw [hvalue _ (fun _ => indexDefinitionKey_ne rfl) (fun _ => indexDefinitionKey_ne rfl),
    foldl_cons, foldl_nil, BatchOperation.leaves, definitionPut_key]
  by_cases heq : other = name
  · rw [if_pos heq, heq, if_pos rfl]
    rfl
  · rw [if_neg heq, if_neg (fun hkey => heq (definitions_exact.encode_inj hname hother hkey).symm)]

/-- **REOPEN**: opening again finds the map, the rows and the sequence number that were there, in a
    tree that can be read. -/
theorem Database.Catalogued.reopen {reopened : Database} (h : db.Catalogued)
    (hcount : db.engine.Counted) {options : EngineOptions} {pages values : Nat}
    {revisions : Mvcc.State} {revisionValues : Bytes}
    (hfits : db.Fits (.reopen options pages values revisions revisionValues))
    (hstep : db.Step (.reopen options pages values revisions revisionValues) reopened) :
    reopened.engine.indexes = db.engine.indexes ∧
      reopened.engine.lastLsn = db.engine.lastLsn ∧ reopened.engine.Counted ∧
      ∀ levels rows, Serves true db.engine levels rows →
        ∃ levels', reopened.engine.Ready levels' rows := by
  obtain ⟨levels, base, treeRows, rows, hholds, hloaded, htip⟩ := h
  cases hstep with
  | refused hwrite => cases hwrite
  | done hallows hact =>
    obtain ⟨engine, hopen, hact⟩ := bind_eq_ok.mp hact
    cases hact
    obtain ⟨levels', hd, hafter⟩ := hholds.reopen hallows hfits hopen
    refine ⟨?_, ?_, ?_, fun _ rows' hserves => ⟨levels', ?_⟩⟩
    · obtain ⟨tree, _, hopen⟩ := bind_eq_ok.mp hopen
      obtain ⟨indexes, hload, hopen⟩ := bind_eq_ok.mp hopen
      obtain ⟨_, _, hopen⟩ := bind_eq_ok.mp hopen
      obtain ⟨_, _, hopen⟩ := bind_eq_ok.mp hopen
      cases hopen
      have hsame : Loaded rows indexes := loadIndexes_loaded hafter.denotes hd
        (hholds.serves.counted hcount).1 hload
      exact Except.ok.inj (hsame.symm.trans hloaded)
    · exact hholds.reopen_lsn htip hopen
    · have hlen := hafter.denotes.len
      obtain ⟨_, _, _, _, _, _, _, hempty⟩ := openWithOptions_form hopen
      have hbuffer : (engine.writeBack.map (fun buffer => buffer.entries.length)).getD 0 = 0 := by
        cases hbuf : engine.writeBack with
        | none => rfl
        | some buffer =>
          rw [Option.map_some, Option.getD_some, hempty buffer hbuf]
          rfl
      rw [Engine.Counted, hbuffer, add_zero, hlen]
      exact (hholds.serves.counted hcount).1
    · obtain rfl := hholds.serves.rows_unique hserves
      exact ⟨hafter.serves, hafter.mvcc, hafter.healthy, hd⟩

end Catalogued

/-! ## Requests -/

section Requests

variable {engine : Engine} {utf8 : Bytes → Bool} {name : Bytes} {indexes : List IndexDefinition}
  {definitions : List (Bytes × Bool)}

theorem declare_ok :
    ∀ {declared : List (Bytes × Bool)}, declare declared indexes = .ok definitions →
      Sorted declared → Sorted definitions ∧ ∀ definition ∈ definitions,
        definition ∈ declared ∨
          Fits16 definition.1 ∧ ∃ index ∈ indexes, index.field = definition.1 := by
  induction indexes with
  | nil =>
    rintro declared ⟨⟩ hs
    exact ⟨hs, fun _ hmem => .inl hmem⟩
  | cons index rest ih =>
    intro declared h hs
    obtain ⟨⟨⟩, hvalid, h⟩ := bind_eq_ok.mp h
    obtain ⟨-, h⟩ := guard_ok.mp h
    obtain ⟨hsorted, hall⟩ := ih h (hs.put _ _)
    refine ⟨hsorted, fun definition hmem => ?_⟩
    rcases hall definition hmem with hput | ⟨hfits, other, hother, hfield⟩
    · rcases mem_put hput with rfl | hold
      · exact .inr ⟨validateSegment_ok.mp hvalid, index, mem_cons_self, rfl⟩
      · exact .inl hold
    · exact .inr ⟨hfits, other, mem_cons_of_mem _ hother, hfield⟩

/-- A declared field can be told from the name of its index. -/
theorem declare_fields (h : declare [] indexes = .ok definitions)
    (htext : ∀ index ∈ indexes, utf8 index.field = true) :
    ∀ definition ∈ definitions, IsField utf8 definition.1 := by
  intro definition hmem
  obtain ⟨hfits, index, hindex, hfield⟩ :=
    ((declare_ok h sorted_nil).2 definition hmem).resolve_left not_mem_nil
  exact ⟨hfits, hfield ▸ htext index hindex⟩

/-- A request with indexes is to create when the collection can be created. -/
theorem checkCollection_creates :
    engine.checkCollection utf8 name indexes = .ok (definitions, true) ↔
      engine.Creates utf8 name indexes definitions ∧ definitions ≠ [] := by
  rw [Engine.checkCollection]
  constructor
  · intro h
    obtain ⟨⟨⟩, hname, h⟩ := bind_eq_ok.mp h
    have hfits := validateSegment_ok.mp hname
    obtain ⟨declared, hdeclared, h⟩ := bind_eq_ok.mp h
    obtain ⟨stored, hstored, h⟩ := bind_eq_ok.mp h
    obtain ⟨-, h⟩ := guard_ok.mp h
    by_cases hnew : stored = [] ∧ declared ≠ []
    · rw [if_pos hnew, collectionPrefix_eq hfits, ok_bind] at h
      obtain ⟨rows, hscan, h⟩ := bind_eq_ok.mp h
      obtain ⟨hrows, h⟩ := guard_ok.mp h
      cases h
      exact ⟨⟨hdeclared, hnew.1 ▸ hstored, not_not.mp hrows ▸ hscan⟩, hnew.2⟩
    · rw [if_neg hnew] at h
      cases h
  · rintro ⟨⟨hdeclared, hstored, hscan⟩, hne⟩
    have hfits := fits_of_storedIndexes hstored
    rw [validateSegment_ok.mpr hfits, ok_bind, hdeclared, ok_bind, hstored, ok_bind,
      if_neg (fun h => h.1 rfl), if_pos ⟨rfl, hne⟩, collectionPrefix_eq hfits, ok_bind, hscan,
      ok_bind, if_neg (fun h => h rfl)]
    rfl

/-- A collection whose stored definitions are the requested ones is opened as it is. -/
theorem collection_stored (hdeclared : declare [] indexes = .ok definitions)
    (hstored : storedIndexes utf8 engine.indexes name = .ok definitions) (hne : definitions ≠ []) :
    engine.collection utf8 name indexes = (.ok ⟨name, definitions⟩, engine) := by
  have hcheck : engine.checkCollection utf8 name indexes = .ok (definitions, false) := by
    rw [Engine.checkCollection, validateSegment_ok.mpr (fits_of_storedIndexes hstored), ok_bind,
      hdeclared, ok_bind, hstored, ok_bind, if_neg (fun h => h.2 rfl), if_neg (fun h => hne h.1)]
    rfl
  rw [Engine.collection, hcheck]

end Requests

/-! ## Fields one after the other -/

section Fields

variable {db : Database} {after engine : Engine} {utf8 : Bytes → Bool} {name : Bytes}
  {indexes : List IndexDefinition} {definitions stored : List (Bytes × Bool)}

/-- What was committed before a failure is a creation of its own. -/
theorem createFields_failed {error : Error}
    (h : engine.createFields name definitions = (.error error, after)) :
    ∃ commits, engine.createFields name (definitions.take commits) = (.ok (), after) := by
  induction definitions generalizing engine with
  | nil => cases h
  | cons definition rest ih =>
    rw [Engine.createFields] at h
    cases hfirst : engine.createField name definition.1 definition.2 with
    | error =>
      rw [hfirst] at h
      cases h
      exact ⟨0, rfl⟩
    | ok =>
      rw [hfirst] at h
      obtain ⟨commits, hcommits⟩ := ih h
      refine ⟨commits + 1, ?_⟩
      rw [take_succ_cons, Engine.createFields, hfirst]
      exact hcommits

theorem createFields_cons {definition : Bytes × Bool} {rest : List (Bytes × Bool)}
    (h : engine.createFields name (definition :: rest) = (.ok (), after)) :
    ∃ created, engine.createField name definition.1 definition.2 = .ok created ∧
      created.createFields name rest = (.ok (), after) := by
  rw [Engine.createFields] at h
  cases hfirst : engine.createField name definition.1 definition.2 with
  | error =>
    rw [hfirst] at h
    cases h
  | ok created =>
    rw [hfirst] at h
    exact ⟨created, rfl, h⟩

/-- **FIELDS**: the definitions that are created join those that are stored. -/
theorem Database.Catalogued.createFields (h : db.Catalogued)
    (hstored : storedIndexes utf8 db.engine.indexes name = .ok stored)
    (hfields : ∀ definition ∈ definitions, IsField utf8 definition.1)
    (hrun : db.engine.createFields name definitions = (.ok (), after)) :
    Database.Catalogued { db with engine := after } ∧
      storedIndexes utf8 after.indexes name
        = .ok (definitions.foldl (fun m e => put e.1 e.2 m) stored) := by
  induction definitions generalizing db stored with
  | nil =>
    cases hrun
    exact ⟨h, hstored⟩
  | cons definition rest ih =>
    rw [forall_mem_cons] at hfields
    obtain ⟨created, hfirst, hrest⟩ := createFields_cons hrun
    obtain ⟨index, hindex, hcreate⟩ := bind_eq_ok.mp hfirst
    obtain ⟨_, _, rfl⟩ := indexName_ok hindex
    obtain ⟨h', hmap⟩ := h.create hcreate
    have hstored' : storedIndexes utf8 created.indexes name
        = .ok (put definition.1 definition.2 stored) := by
      rw [hmap]
      exact storedIndexes_put h.sorted hstored hfields.1 _
    exact @ih { db with engine := created } _ h' hstored' hfields.2 hrest

/-- An index that is created has a definition that fits a key, and a sequence number. -/
theorem createIndex_fits {rows : Rows} {index : Bytes} (hserves : Serves true engine levels rows)
    (h : engine.createIndex index unique = .ok after) :
    (indexDefinitionKey index).length ≤ maxKeySize ∧ engine.lastLsn + 1 < 2 ^ 64 := by
  obtain ⟨_, _, results, committed, happly, _⟩ := createIndex_form h
  have hcaller : ∀ operation ∈ [definitionPut index unique], operation.FromCaller :=
    forall_mem_singleton.mpr rfl
  obtain ⟨_, hacc, _⟩ := accepts_of_applyBatch hserves hcaller (cons_ne_nil _ _) happly
  have hvalid := hacc.valid_operations _ mem_cons_self
  exact ⟨(validateKey_ok hvalid.validateKey).2, hacc.lsn⟩

theorem documentName_valid {collection field : Bytes}
    (h : (indexDefinitionKey (documentName collection field)).length ≤ maxKeySize) :
    validateIndexName (documentName collection field) = .ok () := by
  rw [indexDefinitionKey_eq, length_append, segment, length_append, length_toBE] at h
  have hmax : maxKeySize = 2 ^ 16 := rfl
  have hroot : documentIndexPrefix <+: documentName collection field :=
    (prefix_append _ (segment collection)).trans (prefix_append _ (segment field))
  have hpos : 0 < documentIndexPrefix.length := by decide
  have hnil : documentName collection field ≠ [] := 
    length_pos_iff.mp (hpos.trans_le hroot.length_le)
  have hdoc : documentIndexPrefix.isPrefixOf (documentName collection field) = true :=
    List.isPrefixOf_iff_prefix.mpr hroot
  rw [validateIndexName, if_neg hnil, if_neg (by omega), hdoc, Bool.not_true, Bool.and_false,
    if_neg Bool.false_ne_true]

/-- A scan that succeeds shows an engine that can read and write. -/
theorem Holds.ready_of_scan {base treeRows rows : Rows} (h : Holds db levels base treeRows rows)
    {start : Bytes} {found : List (Bytes × Bytes)}
    (hscan : db.engine.scanInternal (some start) (successor start) 1 = .ok found) :
    db.engine.Ready levels rows := by
  obtain ⟨_, _, hscan⟩ := bind_eq_ok.mp hscan
  obtain ⟨_, _, hscan⟩ := bind_eq_ok.mp hscan
  obtain ⟨_, _, hscan⟩ := bind_eq_ok.mp hscan
  have htree : db.engine.treeScan (some start) (successor start) 1 = .ok found := by
    split_ifs at hscan
    · cases hscan
    · exact hscan
  obtain ⟨scanned, hmerged, _⟩ := bind_eq_ok.mp htree
  have hspans : ScanRange.Spans ⟨some start, successor start, none⟩ := by
    rintro _ ⟨⟩ stop hstop
    exact lt_successor hstop
  exact ⟨h.serves, h.mvcc, h.healthy,
    mergedScan_within h.denotes hspans one_pos hmerged (by decide)⟩

end Fields

/-! ## Calls that are cut short -/

section Interrupted

variable {db stopped : Database} {utf8 : Bytes → Bool} {name : Bytes}
  {indexes : List IndexDefinition}

/-- A call that is cut short leaves the database as it was, or with the first of the definitions. -/
theorem Database.Interrupted.cases (h : db.Interrupted utf8 name indexes stopped) :
    stopped = db ∨ ∃ definitions commits created,
      db.engine.Creates utf8 name indexes definitions ∧ 0 < commits ∧
        commits ≤ definitions.length ∧
        db.engine.createFields name (definitions.take commits) = (.ok (), created) ∧
        stopped = { db with engine := created } := by
  have hcommitted : stopped = db ∨ ∃ definitions commits created,
      db.engine.checkCollection utf8 name indexes = .ok (definitions, true) ∧
        db.engine.createFields name (definitions.take commits) = (.ok (), created) ∧
        stopped = { db with engine := created } := by
    cases h with
    | stopped commits hcheck hrun => exact .inr ⟨_, commits, _, hcheck, hrun, rfl⟩
    | failed hrun =>
      rw [Engine.collection] at hrun
      cases hcheck : db.engine.checkCollection utf8 name indexes with
      | error =>
        rw [hcheck] at hrun
        cases hrun
        exact .inl rfl
      | ok checked =>
        rw [hcheck] at hrun
        obtain ⟨definitions, create⟩ := checked
        cases create with
        | false => cases hrun
        | true =>
          obtain ⟨hanswer, rfl⟩ := Prod.mk.inj hrun
          rcases hfields : db.engine.createFields name definitions with ⟨_ | _, created⟩
          · obtain ⟨commits, hcommits⟩ := createFields_failed hfields
            exact .inr ⟨definitions, commits, created, rfl, hcommits, rfl⟩
          · rw [hfields] at hanswer
            cases hanswer
  refine hcommitted.elim .inl ?_
  rintro ⟨definitions, commits, created, hcheck, hrun, rfl⟩
  have htake : definitions.take commits = definitions.take (min commits definitions.length) :=
    take_eq_take_iff.mpr (by omega)
  rw [htake] at hrun
  rcases Nat.eq_zero_or_pos (min commits definitions.length) with hzero | hpos
  · rw [hzero] at hrun
    cases hrun
    exact .inl rfl
  · exact .inr ⟨definitions, _, created, (checkCollection_creates.mp hcheck).1, hpos,
      min_le_right _ _, hrun, rfl⟩

/-- **WHOLE**: under the condition, what is left is nothing or the whole. -/
theorem Database.Catalogued.whole (h : db.Catalogued)
    (htext : ∀ index ∈ indexes, utf8 index.field = true)
    (hsplits : ¬ db.engine.Splits utf8 name indexes)
    (hstop : db.Interrupted utf8 name indexes stopped) :
    stopped = db ∨ ∃ definitions, declare [] indexes = .ok definitions ∧ definitions ≠ [] ∧
      storedIndexes utf8 stopped.engine.indexes name = .ok definitions ∧ stopped.Catalogued ∧
      (db.engine.collection utf8 name indexes).1 = .ok ⟨name, definitions⟩ := by
  refine hstop.cases.imp_right ?_
  rintro ⟨definitions, commits, created, hcreates, hpos, hle, hrun, rfl⟩
  have hne : definitions ≠ [] := by
    rintro rfl
    exact absurd (hpos.trans_le hle) (lt_irrefl 0)
  have hall : commits = definitions.length := by
    by_contra hsome
    -- a proper part was created, so there are two fields, and the first could be stored
    match definitions, hcreates, hle, hrun, hsome with
    | [], _, _, _, _ => exact absurd rfl hne
    | [_], _, hle, _, hsome =>
      have hone : commits ≤ 1 := hle
      exact hsome (le_antisymm hone hpos)
    | first :: second :: rest, hcreates, _, hrun, _ =>
      obtain ⟨levels, base, treeRows, rows, hholds, _⟩ := h
      obtain ⟨before, rfl⟩ := Nat.exists_eq_succ_of_ne_zero hpos.ne'
      obtain ⟨_, hfirst, _⟩ := createFields_cons hrun
      obtain ⟨index, hindex, hcreate⟩ := bind_eq_ok.mp hfirst
      obtain ⟨_, _, rfl⟩ := indexName_ok hindex
      exact hsplits ⟨first, second, rest, hcreates, createIndex_fits hholds.serves hcreate⟩
  rw [hall, take_length] at hrun
  have hsorted := (declare_ok hcreates.declared sorted_nil).1
  obtain ⟨h', hstored⟩ := h.createFields hcreates.unstored
    (declare_fields hcreates.declared htext) hrun
  rw [foldl_put (by rw [nil_append]; exact hsorted), nil_append] at hstored
  refine ⟨definitions, hcreates.declared, hne, hstored, h', ?_⟩
  rw [Engine.collection, checkCollection_creates.mpr ⟨hcreates, hne⟩]
  dsimp only
  rw [hrun]
  rfl

/-- **SPLIT**: outside of it, the first definition can be left alone. -/
theorem Database.Catalogued.split (h : db.Catalogued)
    (htext : ∀ index ∈ indexes, utf8 index.field = true)
    (hsplits : db.engine.Splits utf8 name indexes) :
    ∃ first second rest stopped, declare [] indexes = .ok (first :: second :: rest) ∧
      db.Interrupted utf8 name indexes stopped ∧
      storedIndexes utf8 db.engine.indexes name = .ok [] ∧
      storedIndexes utf8 stopped.engine.indexes name = .ok [first] := by
  obtain ⟨first, second, rest, hcreates, hkey, hlsn⟩ := hsplits
  have hfields := declare_fields hcreates.declared htext
  have hfield := hfields first mem_cons_self
  have hname := fits_of_storedIndexes hcreates.unstored
  have hnew : lookup (documentName name first.1) db.engine.indexes = none := by
    rw [← storedIndexes_lookup h.sorted hcreates.unstored hfield]
    rfl
  obtain ⟨created, hcreate⟩ :
      ∃ created, db.engine.createIndex (documentName name first.1) first.2 = .ok created := by
    obtain ⟨levels, base, treeRows, rows, hholds, _⟩ := h
    have hjudged := @createIndex_judged db.engine levels rows (documentName name first.1) first.2
      (hholds.ready_of_scan hcreates.undocumented)
    have hvalid : validateOperation (definitionPut (documentName name first.1) first.2)
        = .ok () := by
      have hpos : indexDefinitionKey (documentName name first.1) ≠ [] := cons_ne_nil _ _
      rw [definitionPut, validateOperation, validateKey, if_neg hpos, if_neg (not_lt.mpr hkey)]
      rfl
    rw [documentName_valid hkey, ok_bind, hnew, if_neg (by simp), hvalid, nextLsn_ok hlsn]
      at hjudged
    obtain ⟨created, hcreated, _⟩ := map_eq_ok hjudged
    exact ⟨created, hcreated⟩
  have hrun : db.engine.createFields name [first] = (.ok (), created) := by
    rw [Engine.createFields, Engine.createField, indexName_eq hname hfield.1, ok_bind, hcreate]
    rfl
  refine ⟨first, second, rest, _, hcreates.declared, .stopped 1
    (checkCollection_creates.mpr ⟨hcreates, cons_ne_nil _ _⟩) hrun, hcreates.unstored, ?_⟩
  exact (h.createFields hcreates.unstored (forall_mem_singleton.mpr hfield) hrun).2

end Interrupted

/-! ## Opening again -/

section Again

variable {engine engine' : Engine} {levels levels' : Nat} {rows : Rows}
  {utf8 : Bytes → Bool} {name : Bytes} {indexes : List IndexDefinition}

section

variable (h : engine.Ready levels rows) (h' : engine'.Ready levels' rows) (hcount : engine.Counted)
  (hcount' : engine'.Counted)
include h h' hcount hcount'

theorem scanInternal_congr (start stop : Option Bytes) (limit : Nat) :
    engine'.scanInternal start stop limit = engine.scanInternal start stop limit := by
  rw [Engine.scanInternal, Engine.scanInternal, Engine.ensureHealthy, Engine.ensureHealthy,
    h.healthy, h'.healthy]
  cases hrange : ScanRange.reversed ⟨start, stop, none⟩ with
  | true =>
    have hrange : start.any (fun start => stop.any (fun stop => stop < start)) = true := hrange
    simp only [hrange, if_true]
    rfl
  | false =>
    have hscan : engine'.treeScan start stop limit = engine.treeScan start stop limit :=
      (h'.serves.scan_ok h'.shallow hcount' hrange limit).trans
        (h.serves.scan_ok h.shallow hcount hrange limit).symm
    rw [hscan]

/-- The same rows, the same map and the same sequence number give the same answer, when the call has
    one commit to make or none. -/
theorem collection_congr (hindexes : engine'.indexes = engine.indexes)
    (hlsn : engine'.lastLsn = engine.lastLsn) (hsplits : ¬ engine.Splits utf8 name indexes) :
    (engine'.collection utf8 name indexes).1 = (engine.collection utf8 name indexes).1 := by
  have hcheck : engine'.checkCollection utf8 name indexes
      = engine.checkCollection utf8 name indexes := by
    rw [Engine.checkCollection, Engine.checkCollection, hindexes]
    simp only [scanInternal_congr h h' hcount hcount']
  rw [Engine.collection, Engine.collection, hcheck]
  cases hchecked : engine.checkCollection utf8 name indexes with
  | error => rfl
  | ok checked =>
    obtain ⟨definitions, create⟩ := checked
    cases create with
    | false => rfl
    | true =>
      obtain ⟨hcreates, hne⟩ := checkCollection_creates.mp hchecked
      obtain ⟨first, rest, rfl⟩ := exists_cons_of_ne_nil hne
      suffices hsame : (engine'.createFields name (first :: rest)).1
          = (engine.createFields name (first :: rest)).1 by
        dsimp only
        rw [hsame]
      have hjudged : (engine'.createField name first.1 first.2).map (fun _ => ())
          = (engine.createField name first.1 first.2).map (fun _ => ()) := by
        rw [Engine.createField, Engine.createField]
        cases indexName name first.1 with
        | error => rfl
        | ok =>
          rw [ok_bind, ok_bind, createIndex_judged h, createIndex_judged h', hindexes,
            Engine.nextLsn, Engine.nextLsn, hlsn]
      rw [Engine.createFields, Engine.createFields]
      cases hfirst : engine.createField name first.1 first.2 with
      | error error =>
        rw [hfirst] at hjudged
        cases hfirst' : engine'.createField name first.1 first.2 with
        | error =>
          rw [hfirst'] at hjudged
          cases hjudged
          rfl
        | ok =>
          rw [hfirst'] at hjudged
          cases hjudged
      | ok =>
        rw [hfirst] at hjudged
        obtain ⟨created', hfirst', _⟩ := map_eq_ok hjudged
        rw [hfirst']
        -- there is no second field to create
        cases rest with
        | nil => rfl
        | cons second rest =>
          obtain ⟨index, hindex, hcreate⟩ := bind_eq_ok.mp hfirst
          obtain ⟨_, _, rfl⟩ := indexName_ok hindex
          exact absurd ⟨first, second, rest, hcreates, createIndex_fits h.serves hcreate⟩ hsplits

end

end Again

/-! ## All or nothing -/

section

variable {events : List Event} {db : Database}
  (hrun : Run Database.Step Database.Fits Database.empty events db)
  (hloaded : ∀ levels rows, Serves true db.engine levels rows → Loaded rows db.engine.indexes)
include hrun hloaded

theorem catalogued_of_run : db.Catalogued := by
  obtain ⟨⟨base, levels, treeRows, rows, hholds⟩, htip⟩ := holds_of_run hrun
  exact ⟨levels, base, treeRows, rows, hholds, hloaded levels rows hholds.serves, htip⟩

/-- **ALL OR NOTHING**: a call of `collection` that fails or is cut short leaves the stored
    definitions as they were or as requested, and the same call then does what it would have done,
    exactly when it has no two commits to make. Opening the database again finds the definitions
    that the call left, and under the same condition the call does after that what it would have
    done. -/
theorem collection_all_or_nothing_iff {utf8 : Bytes → Bool} {name : Bytes}
    {indexes : List IndexDefinition} (htext : ∀ index ∈ indexes, utf8 index.field = true) :
    (db.AllOrNothing utf8 name indexes ↔ ¬ db.engine.Splits utf8 name indexes) ∧
      ∀ stopped, db.Interrupted utf8 name indexes stopped → stopped.engine.Counted →
        ∀ options pages values revisions revisionValues reopened,
          stopped.Fits (.reopen options pages values revisions revisionValues) →
          stopped.Step (.reopen options pages values revisions revisionValues) reopened →
          storedIndexes utf8 reopened.engine.indexes name
              = storedIndexes utf8 stopped.engine.indexes name ∧
            (¬ db.engine.Splits utf8 name indexes → Shallow db.engine.tree →
              (reopened.engine.collection utf8 name indexes).1
                = (db.engine.collection utf8 name indexes).1) := by
  have h := catalogued_of_run hrun hloaded
  refine ⟨⟨fun hall hsplits => ?_, fun hsplits stopped hstop => ?_⟩, ?_⟩
  · obtain ⟨first, second, rest, stopped, hdeclared, hstop, hnone, hone⟩ := h.split htext hsplits
    obtain ⟨hsame | ⟨definitions, hrequested, hwhole⟩, _⟩ := hall stopped hstop
    · rw [hone, hnone] at hsame
      cases hsame
    · cases hdeclared.symm.trans hrequested
      cases hone.symm.trans hwhole
  · rcases h.whole htext hsplits hstop with rfl | ⟨definitions, hdeclared, hne, hstored, _, hanswer⟩
    · exact ⟨.inl rfl, rfl⟩
    · refine ⟨.inr ⟨definitions, hdeclared, hstored⟩, ?_⟩
      rw [collection_stored hdeclared hstored hne, hanswer]
  · intro stopped hstop hcount options pages values revisions revisionValues reopened hfits hstep
    have hcatalogued : stopped.Catalogued := by
      rcases hstop.cases with rfl | ⟨definitions, commits, created, hcreates, _, _, hrun', rfl⟩
      · exact h
      · exact (h.createFields hcreates.unstored (fun d hd =>
          declare_fields hcreates.declared htext d (mem_of_mem_take hd)) hrun').1
    obtain ⟨hindexes, hlsn, hcount', hready⟩ := hcatalogued.reopen hcount hfits hstep
    refine ⟨by rw [hindexes], fun hsplits hshallow => ?_⟩
    rcases h.whole htext hsplits hstop with rfl | ⟨definitions, hdeclared, hne, hstored, _, hanswer⟩
    · obtain ⟨levels, base, treeRows, rows, hholds, _⟩ := h
      obtain ⟨levels', hready'⟩ := hready levels rows hholds.serves
      exact collection_congr ⟨hholds.serves, hholds.mvcc, hholds.healthy,
        hholds.denotes.shallow_iff.mp hshallow⟩ hready' hcount hcount' hindexes hlsn hsplits
    · rw [collection_stored hdeclared (hindexes ▸ hstored) hne, hanswer]

end

/-- A collection of one field is created whole. -/
theorem single_field_all_or_nothing :
    Database.empty.AllOrNothing (fun _ => true) [99] [⟨[97], false⟩] := by
  refine (collection_all_or_nothing_iff .start (fun levels rows hserves => ?_)
    (fun _ _ => rfl)).1.mpr ?_
  · rw [hserves.rows_unique empty_holds.serves]
    rfl
  · rintro ⟨first, second, rest, hcreates, _⟩
    cases hcreates.declared

/-- Two fields: the process stops after the first of them is committed, and from then on the call
    that would have created the collection is refused. -/
theorem half_created_collection :
    ∃ stopped reopened,
      Database.empty.Interrupted (fun _ => true) [99] [⟨[97], false⟩, ⟨[98], true⟩] stopped ∧
      Run Database.Step Database.Fits stopped
        [.reopen ⟨0, false⟩ 9 9 ⟨0, 0, []⟩ []] reopened ∧
      (Database.empty.engine.collection (fun _ => true) [99] [⟨[97], false⟩, ⟨[98], true⟩]).1
        = .ok ⟨[99], [([97], false), ([98], true)]⟩ ∧
      storedIndexes (fun _ => true) reopened.engine.indexes [99] = .ok [([97], false)] ∧
      (reopened.engine.collection (fun _ => true) [99] [⟨[97], false⟩, ⟨[98], true⟩]).1
        = .error (.invalidDocument
          "document indexes do not match the stored collection definition") := by
  obtain ⟨reopened, hrun, hanswer⟩ : ∃ reopened,
      Run Database.Step Database.Fits { Database.empty with
          engine := (Database.empty.engine.createFields [99] [([97], false)]).2 }
        [.reopen ⟨0, false⟩ 9 9 ⟨0, 0, []⟩ []] reopened ∧
      storedIndexes (fun _ => true) reopened.engine.indexes [99] = .ok [([97], false)] ∧
      (reopened.engine.collection (fun _ => true) [99] [⟨[97], false⟩, ⟨[98], true⟩]).1
        = .error (.invalidDocument
          "document indexes do not match the stored collection definition") :=
    exists_run Database.follow Database.follow_step (by decide +kernel)
  have hcheck : Database.empty.engine.checkCollection (fun _ => true) [99]
      [⟨[97], false⟩, ⟨[98], true⟩] = .ok ([([97], false), ([98], true)], true) := by
    decide +kernel
  have hfirst : (Database.empty.engine.createFields [99] [([97], false)]).1 = .ok () := by
    decide +kernel
  exact ⟨_, reopened, .stopped 1 hcheck (Prod.ext hfirst rfl), hrun, by decide +kernel, hanswer⟩

end Vyrn
