import Vyrn.Document.Collection

/-!
# The keys of the store

Index definitions, index entries, tombstones, change records and documents share one map with the
users' keys. They are told apart by the strings in front of them and, within a space, by the lengths
in front of their parts (**`keys_apart`**).
-/

namespace Vyrn

open List ByteString

/-! ## The code -/

structure DocumentTarget where
  collection : Bytes
  id : Bytes
  deriving DecidableEq, Repr

def readSegment (utf8 : Bytes → Bool) (encoded : Bytes) : Option (Bytes × Bytes) :=
  if encoded.length < 2 then none
  else
    let length := fromBE (encoded.take 2)
    if length = 0 ∨ encoded.length < 2 + length then none
    else if utf8 ((encoded.drop 2).take length) then
      some ((encoded.drop 2).take length, encoded.drop (2 + length))
    else none

def targetFromKey (utf8 : Bytes → Bool) (key : Bytes) : Option DocumentTarget :=
  if documentKeyPrefix.isPrefixOf key then do
    let (collection, rest) ← readSegment utf8 (key.drop documentKeyPrefix.length)
    let (id, rest) ← readSegment utf8 rest
    if rest = [] then some ⟨collection, id⟩ else none
  else none

/-- The keys from a string to its `prefix_end`. -/
def prefixRange (start : Bytes) : ScanRange := ⟨some start, successor start, none⟩

/-- An index entry that the code can write. -/
structure IndexEntry where
  name : Bytes
  value : Bytes
  primary : Bytes
  validName : validateIndexName name = .ok ()
  validValue : validateIndexValue (some value) = .ok ()
  validPrimary : validateKey primary = .ok ()

def IndexEntry.key (e : IndexEntry) : Bytes := indexEntryKey e.name e.value e.primary

variable {key start name value collection id : Bytes} {utf8 : Bytes → Bool}

/-! ## Spaces -/

inductive Space where
  | definition
  | entry
  | tombstone
  | changeLog
  | document
  deriving DecidableEq

def Space.root : Space → Bytes
  | .definition => indexDefinitionPrefix
  | .entry => indexEntryRoot
  | .tombstone => tombstonePrefix
  | .changeLog => changeLogPrefix
  | .document => documentKeyPrefix

/-- The keys that the code forms. -/
def Space.Holds (key : Bytes) : Space → Prop
  | .definition => ∃ name, key = indexDefinitionKey name
  | .entry => ∃ name value primary, key = indexEntryKey name value primary
  | .tombstone => ∃ deleted, key = tombstoneKey deleted
  | .changeLog => ∃ sequence, key = changeLogKey sequence
  | .document => ∃ collection id, documentKey collection id = .ok key

/-- The string in front of what a collection holds. -/
theorem named_ok {root : Bytes} (h : (do validateSegment "collection" collection
                                         appendSegment root collection) = .ok start) :
    Fits16 collection ∧ start = root ++ segment collection := by
  obtain ⟨⟨⟩, hcollection, happend⟩ := bind_eq_ok.mp h
  have hc := validateSegment_ok.mp hcollection
  rw [appendSegment_ok hc.short] at happend
  exact ⟨hc, (Except.ok.inj happend).symm⟩

theorem documentKey_ok (h : documentKey collection id = .ok key) :
    Fits16 collection ∧ Fits16 id ∧ key = documentAt collection id := by
  obtain ⟨⟨⟩, hid, hrest⟩ := bind_eq_ok.mp h
  obtain ⟨root, hroot, hrest⟩ := bind_eq_ok.mp hrest
  obtain ⟨hc, rfl⟩ := named_ok hroot
  have hi := validateSegment_ok.mp hid
  rw [appendSegment_ok hi.short, ok_bind] at hrest
  split_ifs at hrest
  exact ⟨hc, hi, (Except.ok.inj hrest).symm⟩

theorem Space.Holds.rooted {space : Space} (h : space.Holds key) : space.root <+: key := by
  cases space with
  | definition =>
    obtain ⟨name, rfl⟩ := h
    exact ⟨_, (append_assoc ..).symm⟩
  | entry =>
    obtain ⟨name, value, primary, rfl⟩ := h
    exact indexEntryKey_rooted name value primary
  | tombstone =>
    obtain ⟨deleted, rfl⟩ := h
    exact prefix_append _ _
  | changeLog =>
    obtain ⟨sequence, rfl⟩ := h
    exact prefix_append _ _
  | document =>
    obtain ⟨collection, id, h⟩ := h
    rw [(documentKey_ok h).2.2, documentAt, collectionRoot, append_assoc]
    exact prefix_append _ _

/-- No root is the beginning of another one, so no key is under two. -/
theorem Space.eq_of_rooted {s t : Space} (hs : s.root <+: key) (ht : t.root <+: key) : s = t := by
  have hroots : ∀ s t : Space, s.root <+: t.root → s = t := by
    intro s t
    cases s <;> cases t <;> decide
  rcases prefix_or_prefix_of_prefix hs ht with h | h
  · exact hroots s t h
  · exact (hroots t s h).symm

/-- What a scan finds is of the space that it starts in. -/
theorem Space.Holds.of_range {s t : Space} (hstart : t.root <+: start) (h : s.Holds key)
    (hin : (prefixRange start).admits key = true) : s = t :=
  Space.eq_of_rooted h.rooted (hstart.trans (prefixRange_admits.mp hin))

/-! ## Ranges -/

/-- A range of strings that stand behind their lengths has one of them. -/
theorem range_measured {w : Nat} {root a b rest : Bytes} (ha : a.length < 256 ^ w)
    (hb : b.length < 256 ^ w) :
    (prefixRange (root ++ (toBE w a.length ++ a))).admits
      (root ++ (toBE w b.length ++ (b ++ rest))) = true ↔ b = a := by
  refine prefixRange_admits.trans ((prefix_append_right_inj root).trans ⟨?_, ?_⟩)
  · rintro ⟨tail, h⟩
    rw [append_assoc, measured_inj ha hb] at h
    exact h.1.symm
  · rintro rfl
    exact ⟨rest, append_assoc ..⟩

/-- What lies under a collection's string is the collection's. -/
theorem range_collection {root collection' : Bytes} (hc : Fits16 collection)
    (hc' : Fits16 collection') :
    (prefixRange (root ++ segment collection)).admits (root ++ segment collection' ++ segment id)
      = true ↔ collection' = collection := by
  rw [append_assoc, segment_append]
  exact range_measured hc.short hc'.short

/-! ## Entries -/

theorem IndexEntry.short (e : IndexEntry) : e.name.length < 256 ^ 2 ∧ e.value.length < 256 ^ 4 := by
  have hname := e.validName
  have hvalue := e.validValue
  rw [validateIndexName] at hname
  rw [validateIndexValue] at hvalue
  split_ifs at hname with hempty hlong
  split_ifs at hvalue with hbig
  simp only [Option.any_some, decide_eq_true_eq] at hbig
  omega

theorem IndexEntry.key_eq (e : IndexEntry) {rest : Bytes}
    (h : name.length < 256 ^ 2 ∧ value.length < 256 ^ 4) :
    indexEntryKey name value rest = e.key ↔
      name = e.name ∧ value = e.value ∧ rest = e.primary := by
  rw [IndexEntry.key, indexEntryKey_eq, indexEntryKey_eq, append_cancel_left_eq,
    measured_inj h.1 e.short.1, measured_inj h.2 e.short.2]

theorem IndexEntry.primary_back (e : IndexEntry) :
    decodeIndexPrimary e.key (indexValuePrefix e.name e.value) = .ok e.primary := by
  rw [IndexEntry.key, decodeIndexPrimary_key, e.validPrimary]
  rfl

/-! ## Documents -/

theorem readSegment_segment (h : Fits16 value) (htext : utf8 value = true) (rest : Bytes) :
    readSegment utf8 (segment value ++ rest) = some (value, rest) := by
  have hlen : (toBE 2 value.length).length = 2 := length_toBE 2 _
  have hpos := length_pos_iff.mpr h.nonempty
  rw [segment_append, readSegment, take_left' hlen, fromBE_toBE h.short]
  dsimp only
  rw [← drop_drop, drop_left' hlen, length_append, length_append, hlen, take_left, drop_left,
    if_neg (by omega), if_neg (by omega), if_pos htext]

theorem targetFromKey_documentKey (h : documentKey collection id = .ok key)
    (hcollection : utf8 collection = true) (hid : utf8 id = true) :
    targetFromKey utf8 key = some ⟨collection, id⟩ := by
  obtain ⟨hc, hi, rfl⟩ := documentKey_ok h
  have hlast := readSegment_segment hi hid []
  rw [append_nil] at hlast
  rw [documentAt, collectionRoot, append_assoc, targetFromKey,
    if_pos (List.isPrefixOf_iff_prefix.mpr (prefix_append _ _)), drop_left,
    readSegment_segment hc hcollection]
  show (readSegment utf8 (segment id)).bind _ = _
  rw [hlast]
  rfl

/-- **APART**: entries of an index, of one of its values, documents and index names of a collection
    are found by their ranges and by no other one, and every key is of one space. The index names
    are those that `indexName` builds. -/
theorem keys_apart (utf8 : Bytes → Bool) :
    (∀ e e' : IndexEntry,
      (e.key = e'.key ↔ e.name = e'.name ∧ e.value = e'.value ∧ e.primary = e'.primary) ∧
      decodeIndexPrimary e.key (indexValuePrefix e.name e.value) = .ok e.primary ∧
      ((prefixRange (indexValuePrefix e.name e.value)).admits e'.key = true ↔
        e.name = e'.name ∧ e.value = e'.value) ∧
      ((prefixRange (indexEntryPrefix e.name)).admits e'.key = true ↔ e'.name = e.name)) ∧
    (∀ collection collection' id start key, collectionPrefix collection = .ok start →
      documentKey collection' id = .ok key →
      ((prefixRange start).admits key = true ↔ collection' = collection)) ∧
    (∀ collection collection' field start name, indexPrefix collection = .ok start →
      indexName collection' field = .ok name →
      ((prefixRange start).admits name = true ↔ collection' = collection)) ∧
    (∀ key (s t : Space), s.Holds key → t.Holds key → s = t) ∧
    (∀ key (s : Space), s.Holds key →
      (∀ name, (prefixRange (indexEntryPrefix name)).admits key = true → s = .entry) ∧
      ∀ collection start, collectionPrefix collection = .ok start →
        (prefixRange start).admits key = true → s = .document) ∧
    (∀ collection id key, documentKey collection id = .ok key → utf8 collection = true →
      utf8 id = true → targetFromKey utf8 key = some ⟨collection, id⟩) := by
  refine ⟨fun e e' => ⟨e'.key_eq e.short, e.primary_back, ?_, ?_⟩, ?_, ?_,
    fun key s t hs ht => Space.eq_of_rooted hs.rooted ht.rooted,
    fun key s hs => ⟨fun name hin => ?_, fun collection start hstart hin => ?_⟩,
    fun collection id key => targetFromKey_documentKey⟩
  · refine prefixRange_admits.trans ⟨fun ⟨rest, hrest⟩ => ?_, fun ⟨hname, hvalue⟩ => ?_⟩
    · obtain ⟨hname, hvalue, -⟩ := (e'.key_eq e.short).mp hrest
      exact ⟨hname, hvalue⟩
    · rw [hname, hvalue]
      exact prefix_append _ _
  · rw [IndexEntry.key, indexEntryKey_eq, indexEntryPrefix, append_assoc]
    exact range_measured e.short.1 e'.short.1
  · intro collection collection' id start key hstart hkey
    obtain ⟨hc, rfl⟩ := named_ok hstart
    obtain ⟨hc', -, rfl⟩ := documentKey_ok hkey
    exact range_collection hc hc'
  · intro collection collection' field start name hstart hname
    obtain ⟨hc, rfl⟩ := named_ok hstart
    obtain ⟨hc', -, rfl⟩ := indexName_ok hname
    exact range_collection hc hc'
  · refine hs.of_range (t := .entry) ?_ hin
    rw [indexEntryPrefix, append_assoc]
    exact prefix_append _ _
  · obtain ⟨-, rfl⟩ := named_ok hstart
    exact hs.of_range (t := .document) (prefix_append _ _) hin

end Vyrn
