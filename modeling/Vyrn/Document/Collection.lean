import Vyrn.Engine.Unique
import Vyrn.Lib.Catalog

/-!
# Document collections

A collection's documents lie under one string, its index definitions under another, and both are
told from those of other collections by the length before the collection's name. The check of UTF-8
is a parameter. Main results: `documentName_inj`, `storedIndexes_eq`.
-/

namespace Vyrn

open SortedMap List ByteString Catalog

variable {value : Bytes}

/-! ## The code -/

def validateSegment (kind : String) (value : Bytes) : Except Error Unit :=
  if value = [] then .error (.invalidDocument (kind ++ " cannot be empty"))
  else if 2 ^ 16 - 1 < value.length then .error .keyTooLarge
  else .ok ()

/-- A string behind its length. -/
def segment (value : Bytes) : Bytes := toBE 2 value.length ++ value

def appendSegment (output value : Bytes) : Except Error Bytes :=
  if 2 ^ 16 ≤ value.length then .error .keyTooLarge else .ok (output ++ segment value)

def collectionPrefix (collection : Bytes) : Except Error Bytes := do
  validateSegment "collection" collection
  appendSegment documentKeyPrefix collection

def documentKey (collection id : Bytes) : Except Error Bytes := do
  validateSegment "document ID" id
  let start ← collectionPrefix collection
  let key ← appendSegment start id
  if maxKeySize < key.length then .error .keyTooLarge else .ok key

def indexPrefix (collection : Bytes) : Except Error Bytes := do
  validateSegment "collection" collection
  appendSegment documentIndexPrefix collection

def indexName (collection field : Bytes) : Except Error Bytes := do
  validateSegment "collection" collection
  validateSegment "field" field
  let start ← indexPrefix collection
  appendSegment start field

/-- The one segment that is left of a key or of a name; the texts are of the three refusals. -/
def decodeSegment (utf8 : Bytes → Bool) (missing invalid notText : String) (encoded : Bytes) :
    Except Error Bytes :=
  if encoded.length < 2 then .error (.invalidDocument missing)
  else if fromBE (encoded.take 2) = 0 ∨
      encoded.length ≠ fromBE (encoded.take 2) + 2 then
    .error (.invalidDocument invalid)
  else if utf8 (encoded.drop 2) then .ok (encoded.drop 2)
  else .error (.invalidDocument notText)

/-- The field that a stored index of a collection is of. -/
def decodeField (utf8 : Bytes → Bool) (start : Bytes) (index : Bytes × Bool) :
    Except Error (Bytes × Bool) := do
  let field ← decodeSegment utf8 "stored document index has no field"
    "stored document index has an invalid field" "stored document index field is not UTF-8"
    (index.1.drop start.length)
  return (field, index.2)

def storedIndexes (utf8 : Bytes → Bool) (indexes : List (Bytes × Bool)) (collection : Bytes) :
    Except Error (List (Bytes × Bool)) := do
  let start ← indexPrefix collection
  let names := (indexes.dropWhile (fun index => index.1 < start)).takeWhile
    (fun index => start.isPrefixOf index.1)
  let fields ← names.mapM (decodeField utf8 start)
  return fields.foldl (fun definitions field => put field.1 field.2 definitions) []

structure IndexDefinition where
  field : Bytes
  unique : Bool
  deriving DecidableEq, Repr

/-- A collection that is open for writing. -/
structure Collection where
  name : Bytes
  indexes : List (Bytes × Bool)
  deriving DecidableEq, Repr

/-- The requested definitions by field. -/
def declare : List (Bytes × Bool) → List IndexDefinition → Except Error (List (Bytes × Bool))
  | definitions, [] => .ok definitions
  | definitions, index :: rest => do
    validateSegment "field" index.field
    if (lookup index.field definitions).isSome then
      throw (.invalidDocument "duplicate document index")
    declare (put index.field index.unique definitions) rest

def Engine.scanInternal (engine : Engine) (start stop : Option Bytes) (limit : Nat) :
    Except Error (List (Bytes × Bytes)) := do
  engine.ensureHealthy
  start.forM validateKey
  stop.forM validateKey
  if start.any (fun start => stop.any (fun stop => stop < start)) then throw .invalidRange
  engine.treeScan start stop limit

/-- What is checked before a collection is opened: the definitions, and whether they are to be
    created. -/
def Engine.checkCollection (engine : Engine) (utf8 : Bytes → Bool) (name : Bytes)
    (indexes : List IndexDefinition) : Except Error (List (Bytes × Bool) × Bool) := do
  validateSegment "collection" name
  let definitions ← declare [] indexes
  let stored ← storedIndexes utf8 engine.indexes name
  if stored ≠ [] ∧ stored ≠ definitions then
    throw (.invalidDocument "document indexes do not match the stored collection definition")
  if stored = [] ∧ definitions ≠ [] then do
    let start ← collectionPrefix name
    let rows ← engine.scanInternal (some start) (successor start) 1
    if rows ≠ [] then
      throw (.invalidDocument "indexes cannot be added after a collection contains documents")
    return (definitions, true)
  else return (definitions, false)

def Engine.createField (engine : Engine) (name field : Bytes) (unique : Bool) :
    Except Error Engine := do
  let index ← indexName name field
  engine.createIndex index unique

/-- One commit for each field; a failure leaves the ones before it. -/
def Engine.createFields (engine : Engine) (name : Bytes) :
    List (Bytes × Bool) → Except Error Unit × Engine
  | [] => (.ok (), engine)
  | (field, unique) :: rest =>
    match engine.createField name field unique with
    | .error error => (.error error, engine)
    | .ok created => created.createFields name rest

def Engine.collection (engine : Engine) (utf8 : Bytes → Bool) (name : Bytes)
    (indexes : List IndexDefinition) : Except Error Collection × Engine :=
  match engine.checkCollection utf8 name indexes with
  | .error error => (.error error, engine)
  | .ok (definitions, false) => (.ok ⟨name, definitions⟩, engine)
  | .ok (definitions, true) =>
    let (created, engine) := engine.createFields name definitions
    (created.map (fun _ => ⟨name, definitions⟩), engine)

/-! ## Keys and names -/

/-- A string that is no more than a segment holds. -/
structure Fits16 (value : Bytes) : Prop where
  nonempty : value ≠ []
  short : value.length < 256 ^ 2

theorem validateSegment_ok {kind : String} :
    validateSegment kind value = .ok () ↔ Fits16 value := by
  rw [validateSegment]
  constructor
  · intro h
    split_ifs at h with hempty hlong
    exact ⟨hempty, by omega⟩
  · rintro ⟨hne, _⟩
    rw [if_neg hne, if_neg (by omega)]

theorem appendSegment_ok {output : Bytes} (h : value.length < 256 ^ 2) :
    appendSegment output value = .ok (output ++ segment value) := by
  rw [appendSegment, if_neg (by omega)]

/-- The string that a collection's documents start with. -/
def collectionRoot (collection : Bytes) : Bytes := documentKeyPrefix ++ segment collection

def documentAt (collection id : Bytes) : Bytes := collectionRoot collection ++ segment id

/-- The string that the names of a collection's indexes start with. -/
def namesRoot (collection : Bytes) : Bytes := documentIndexPrefix ++ segment collection

def documentName (collection field : Bytes) : Bytes := namesRoot collection ++ segment field

section Layout

variable {collection field id a b : Bytes} {collection' : Bytes}

theorem collectionPrefix_eq (h : Fits16 collection) :
    collectionPrefix collection = .ok (collectionRoot collection) := by
  rw [collectionPrefix, validateSegment_ok.mpr h, ok_bind, appendSegment_ok h.short]
  rfl

theorem indexPrefix_eq (h : Fits16 collection) :
    indexPrefix collection = .ok (namesRoot collection) := by
  rw [indexPrefix, validateSegment_ok.mpr h, ok_bind, appendSegment_ok h.short]
  rfl

theorem indexName_eq (hcollection : Fits16 collection) (hfield : Fits16 field) :
    indexName collection field = .ok (documentName collection field) := by
  rw [indexName, validateSegment_ok.mpr hcollection, ok_bind, validateSegment_ok.mpr hfield,
    ok_bind, indexPrefix_eq hcollection, ok_bind, appendSegment_ok hfield.short]
  rfl

theorem indexName_ok {name : Bytes} (h : indexName collection field = .ok name) :
    Fits16 collection ∧ Fits16 field ∧ name = documentName collection field := by
  obtain ⟨⟨⟩, hcollection, hrest⟩ := bind_eq_ok.mp h
  obtain ⟨⟨⟩, hfield, _⟩ := bind_eq_ok.mp hrest
  have hc := validateSegment_ok.mp hcollection
  have hf := validateSegment_ok.mp hfield
  exact ⟨hc, hf, (Except.ok.inj ((indexName_eq hc hf).symm.trans h)).symm⟩

theorem segment_append (value rest : Bytes) :
    segment value ++ rest = toBE 2 value.length ++ (value ++ rest) := by
  rw [segment, append_assoc]

theorem segment_append_inj {x y : Bytes} (ha : a.length < 256 ^ 2) (hb : b.length < 256 ^ 2) :
    segment a ++ x = segment b ++ y ↔ a = b ∧ x = y := by
  rw [segment_append, segment_append, measured_inj ha hb]

theorem segment_inj (ha : a.length < 256 ^ 2) (hb : b.length < 256 ^ 2) :
    segment a = segment b ↔ a = b := by
  have h := @segment_append_inj a b [] [] ha hb
  rw [append_nil, append_nil] at h
  rw [h, and_iff_left rfl]

/-- **NAME**: the name of a document index is of one collection and one field. -/
theorem documentName_inj {field' : Bytes} (hc : Fits16 collection) (hc' : Fits16 collection')
    (hf : Fits16 field) (hf' : Fits16 field') :
    documentName collection field = documentName collection' field' ↔
      collection = collection' ∧ field = field' := by
  rw [documentName, documentName, namesRoot, namesRoot, append_assoc, append_assoc,
    append_cancel_left_eq, segment_append_inj hc.short hc'.short,
    segment_inj hf.short hf'.short]

end Layout

/-! ## Decoding a segment -/

theorem decodeSegment_ok {utf8 : Bytes → Bool} {missing invalid notText : String}
    {encoded : Bytes} :
    decodeSegment utf8 missing invalid notText encoded = .ok value ↔
      encoded = segment value ∧ Fits16 value ∧ utf8 value = true := by
  rw [decodeSegment]
  constructor
  · intro h
    split_ifs at h with hshort hlen htext
    cases h
    obtain ⟨hpos, hexact⟩ := not_or.mp hlen
    obtain ⟨hencoded, hbound⟩ := measured_iff.mpr ⟨not_lt.mp hshort, (not_not.mp hexact).symm, rfl⟩
    refine ⟨hencoded, ⟨fun hnil => hpos ?_, hbound⟩, htext⟩
    have hlen := congrArg length hnil
    rw [length_drop, length_nil] at hlen
    omega
  · rintro ⟨hencoded, hfits, htext⟩
    obtain ⟨hle, _, hvalue⟩ := measured_iff.mp ⟨hencoded, hfits.short⟩
    have hpos := length_pos_iff.mpr hfits.nonempty
    rw [hvalue, length_drop] at hpos
    rw [if_neg (not_lt.mpr hle), if_neg (by omega), ← hvalue, if_pos htext]

/-! ## The stored definitions of a collection -/

section Stored

variable {utf8 : Bytes → Bool} {collection : Bytes} {indexes : List (Bytes × Bool)}
  {stored : List (Bytes × Bool)}

/-- A field that a definition can name. -/
def IsField (utf8 : Bytes → Bool) (field : Bytes) : Prop := Fits16 field ∧ utf8 field = true

theorem fields_exact (hc : Fits16 collection) :
    Exact (fun name => namesRoot collection <+: name)
      (decodeField utf8 (namesRoot collection)) (documentName collection) (IsField utf8) some := by
  refine ⟨?_, fun _ => prefix_append _ _,
    fun hn hn' heq => ((documentName_inj hc hc hn.1 hn'.1).mp heq).2⟩
  rintro ⟨name, unique⟩ field unique' ⟨rest, hname⟩
  rw [decodeField, ← hname, drop_left, documentName, append_cancel_left_eq]
  constructor
  · intro h
    obtain ⟨decoded, hdecode, h⟩ := bind_eq_ok.mp h
    cases h
    obtain ⟨hrest, hfits, htext⟩ := decodeSegment_ok.mp hdecode
    exact ⟨hrest, ⟨hfits, htext⟩, rfl⟩
  · rintro ⟨hrest, ⟨hfits, htext⟩, hunique⟩
    rw [decodeSegment_ok.mpr ⟨hrest, hfits, htext⟩, ok_bind, Option.some.inj hunique]
    rfl

/-- **STORED**: the declared fields are read off the names under the collection's string. -/
theorem storedIndexes_eq (hs : Sorted indexes) (hc : Fits16 collection) :
    storedIndexes utf8 indexes collection
      = load (decodeField utf8 (namesRoot collection))
          (indexes.filter (fun index => (namesRoot collection).isPrefixOf index.1)) := by
  rw [storedIndexes, indexPrefix_eq hc, ok_bind]
  rw [takeWhile_prefixed hs]
  rfl

theorem fits_of_storedIndexes (h : storedIndexes utf8 indexes collection = .ok stored) :
    Fits16 collection := by
  obtain ⟨_, hstart, _⟩ := bind_eq_ok.mp h
  obtain ⟨⟨⟩, hvalid, _⟩ := bind_eq_ok.mp hstart
  exact validateSegment_ok.mp hvalid

theorem filter_names_under {root : Bytes} :
    ∀ index ∈ indexes.filter (fun index => root.isPrefixOf index.1), root <+: index.1 :=
  fun _ hindex => List.isPrefixOf_iff_prefix.mp (mem_filter.mp hindex).2

theorem storedIndexes_lookup (hs : Sorted indexes)
    (h : storedIndexes utf8 indexes collection = .ok stored) {field : Bytes}
    (hfield : IsField utf8 field) :
    lookup field stored = lookup (documentName collection field) indexes := by
  have hc := fits_of_storedIndexes h
  rw [storedIndexes_eq hs hc] at h
  have hunder : (namesRoot collection).isPrefixOf (documentName collection field) = true :=
    List.isPrefixOf_iff_prefix.mpr (prefix_append _ _)
  rw [(load_lookup (fields_exact hc) (hs.filter _) filter_names_under h).1 field hfield,
    Option.bind_fun_some,
    lookup_filter (fun name => (namesRoot collection).isPrefixOf name), hunder, if_pos rfl]

/-- A new index of the collection is one more declared field. -/
theorem storedIndexes_put (hs : Sorted indexes)
    (h : storedIndexes utf8 indexes collection = .ok stored) {field : Bytes}
    (hfield : IsField utf8 field) (unique : Bool) :
    storedIndexes utf8 (put (documentName collection field) unique indexes) collection
      = .ok (put field unique stored) := by
  have hc := fits_of_storedIndexes h
  have hunder : (namesRoot collection).isPrefixOf (documentName collection field) = true :=
    List.isPrefixOf_iff_prefix.mpr (prefix_append _ _)
  have hfilter := filter_update hs (fun name => (namesRoot collection).isPrefixOf name)
    (documentName collection field, some unique)
  rw [if_pos hunder] at hfilter
  rw [storedIndexes_eq hs hc] at h
  rw [storedIndexes_eq (hs.put _ _) hc]
  refine Eq.trans (congrArg _ hfilter) ?_
  exact load_put (fields_exact hc) (hs.filter _) filter_names_under h hfield rfl

end Stored

end Vyrn
