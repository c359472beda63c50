import Vyrn.ValueLog
import Vyrn.Lib.SortedMap
import Vyrn.Lib.Packing

/-!
# Pages of the tree — cells, blobs, decoding and the level writers

The page file is an append-only list of pages and a page id is a position in it. A page is modelled
as the cells it holds rather than as 4096 bytes, with the byte sizes of the layout kept, since they
decide every split and merge. A leaf holds cells (key, value, revision); an internal page its first
child in the header and a cell (separator, child) for each further one. A key over the inline limit
sits in a chain of blob pages, a value over it in the value log. A version-5 page ends in a slot
directory, two bytes per cell; a version-4 page has none and is walked cell by cell.
-/

namespace Vyrn

/-! ## Layout -/

def pageSize : Nat := 4096

/-- Bytes of the page header (`HEADER_SIZE`). -/
def headerSize : Nat := 40

def slotSize : Nat := 2

def inlineLimit : Nat := 1024

def leafCellHeader : Nat := 33

def internalCellHeader : Nat := 21

def underfullBytes : Nat := pageSize / 4

def maxLeafEntries : Nat := (pageSize - headerSize) / leafCellHeader

def maxInternalChildren : Nat := (pageSize - headerSize) / internalCellHeader + 1

def maxTreeDepth : Nat := 64

/-- A key in a cell: its bytes, or the first page and length of its blob. -/
inductive KeyCell where
  | inline (key : Bytes)
  | blob (page len : Nat)
  deriving DecidableEq, Repr

/-- A value in a leaf cell: its bytes, or its offset and length in the value log. -/
inductive ValueCell where
  | inline (value : Bytes)
  | external (offset len : Nat)
  deriving DecidableEq, Repr

structure LeafCell where
  key : KeyCell
  value : ValueCell
  revision : Nat
  deriving DecidableEq, Repr

structure InternalCell where
  key : KeyCell
  child : Nat
  deriving DecidableEq, Repr

/-- A page. `slots` says whether the page has a slot directory (version 5) or not
    (version 4). -/
inductive Page where
  | super
  | leaf (slots : Bool) (cells : List LeafCell)
  | internal (slots : Bool) (first : Nat) (cells : List InternalCell)
  | blob (chunk : Bytes) (next : Nat)
  deriving DecidableEq, Repr

/-- The page file. -/
abbrev Pages := List Page

/-- A decoded value: inline bytes or a reference into the value log. -/
inductive EntryValue where
  | inline (value : Bytes)
  | external (reference : ValueRef)
  deriving DecidableEq, Repr

/-- What a leaf stores under a key. -/
structure Stored where
  value : EntryValue
  revision : Nat
  deriving DecidableEq, Repr

/-- A decoded leaf entry. -/
abbrev Entry := Bytes × Stored

/-- A child as its parent sees it. -/
structure NodeRef where
  pageId : Nat
  minKey : Bytes
  deriving DecidableEq, Repr

/-- Neighbouring nodes with what lies below each. -/
abbrev Kids := List (NodeRef × List Entry)

namespace KeyCell

/-- The length of the key, as the cell states it. -/
def len : KeyCell → Nat
  | .inline key => key.length
  | .blob _ len => len

/-- The bytes the key takes inside its page. -/
def inPage : KeyCell → Nat
  | .inline key => key.length
  | .blob _ _ => 0

end KeyCell

namespace ValueCell

def len : ValueCell → Nat
  | .inline value => value.length
  | .external _ len => len

def inPage : ValueCell → Nat
  | .inline value => value.length
  | .external _ _ => 0

end ValueCell

def LeafCell.bytes (cell : LeafCell) : Nat :=
  leafCellHeader + cell.key.inPage + cell.value.inPage

def InternalCell.bytes (cell : InternalCell) : Nat :=
  internalCellHeader + cell.key.inPage

/-- The bytes an inlined key takes, and nothing for a key that goes to a blob. -/
def inlineKeyBytes (key : Bytes) : Nat :=
  if key.length ≤ inlineLimit then key.length else 0

def leafCellSize (entry : Entry) : Nat :=
  leafCellHeader + inlineKeyBytes entry.1 +
    match entry.2.value with
    | .inline value => value.length
    | .external _ => 0

def internalCellSize (key : Bytes) : Nat :=
  internalCellHeader + inlineKeyBytes key

/-! ## Errors of the page layer -/

def Page.type : Page → Nat
  | .super => 1
  | .leaf _ _ => 2
  | .internal _ _ _ => 3
  | .blob _ _ => 4

def unexpectedType (pageId : Nat) (page : Page) : Error :=
  .corruptPage pageId ("unexpected page type " ++ toString page.type)

def excessiveDepth (pageId : Nat) : Error :=
  .corruptPage pageId ("tree descent deeper than " ++ toString maxTreeDepth ++
    " levels; the page graph is cyclic or forged")

def requirePage (offset length pageId : Nat) : Except Error Unit :=
  if pageSize < offset + length then .error (.corruptPage pageId "cell exceeds page boundary")
  else .ok ()

/-! ## Reading pages and blobs -/

def readPage (pages : Pages) (pageId : Nat) : Except Error Page :=
  match pages[pageId]? with
  | some page => .ok page
  | none => .error (.corruptPage pageId "page reference is out of bounds")

/-- Follows a blob for at most `fuel` pages; returns the bytes read and the page the chain
    goes on with (`0` at its end). -/
def readBlobFrom (pages : Pages) (expected : Nat) :
    Nat → Nat → Bytes → Except Error (Bytes × Nat)
  | 0, pageId, result => .ok (result, pageId)
  | fuel + 1, pageId, result =>
    if pageId = 0 then .ok (result, pageId)
    else
      match readPage pages pageId with
      | .error error => .error error
      | .ok (.blob chunk next) =>
        if pageSize - headerSize < chunk.length ∨ expected < result.length + chunk.length then
          .error (.corruptPage pageId "invalid blob chunk length")
        else readBlobFrom pages expected fuel next (result ++ chunk)
      | .ok page => .error (unexpectedType pageId page)

def readBlob (pages : Pages) (firstPage expected : Nat) : Except Error Bytes :=
  if expected = 0 then
    if firstPage = 0 then .ok []
    else .error (.corruptPage firstPage "empty blob has a page reference")
  else
    match readBlobFrom pages expected
        ((expected + (pageSize - headerSize) - 1) / (pageSize - headerSize)) firstPage [] with
    | .error error => .error error
    | .ok (result, pageId) =>
      if result.length ≠ expected ∨ pageId ≠ 0 then
        .error (.corruptPage firstPage "blob length does not match reference")
      else .ok result

/-! ## Decoding -/

/-- Reads a cell's key at `offset` of its page; returns it with the offset behind it. -/
def decodeKey (pages : Pages) (pageId offset : Nat) : KeyCell → Except Error (Bytes × Nat)
  | .blob page len => do
    let key ← readBlob pages page len
    return (key, offset)
  | .inline key => do
    requirePage offset key.length pageId
    return (key, offset + key.length)

def decodeLeafCell (pages : Pages) (pageId offset : Nat) (cell : LeafCell) :
    Except Error (Entry × Nat) := do
  requirePage offset leafCellHeader pageId
  if cell.key.len = 0 ∨ maxStoredKeySize < cell.key.len ∨ maxValueSize < cell.value.len then
    throw (.corruptPage pageId "invalid leaf cell metadata")
  let (key, offset) ← decodeKey pages pageId (offset + leafCellHeader) cell.key
  match cell.value with
  | .external valueOffset len =>
    return ((key, ⟨.external ⟨valueOffset, len, cell.revision⟩, cell.revision⟩), offset)
  | .inline value =>
    requirePage offset value.length pageId
    return ((key, ⟨.inline value, cell.revision⟩), offset + value.length)

def decodeLeafCells (pages : Pages) (pageId : Nat) :
    Nat → List LeafCell → Except Error (List Entry)
  | _, [] => .ok []
  | offset, cell :: cells => do
    let (entry, offset) ← decodeLeafCell pages pageId offset cell
    let entries ← decodeLeafCells pages pageId offset cells
    return entry :: entries

def decodeLeaf (pages : Pages) (pageId : Nat) (cells : List LeafCell) :
    Except Error (List Entry) :=
  if maxLeafEntries < cells.length then
    .error (.corruptPage pageId ("leaf claims " ++ toString cells.length ++
      " entries but a page holds at most " ++ toString maxLeafEntries))
  else decodeLeafCells pages pageId headerSize cells

/-- The key of a leaf's first cell alone. -/
def firstLeafKey (pages : Pages) (pageId : Nat) (cells : List LeafCell) : Except Error Bytes :=
  match cells with
  | [] => .error (.corruptPage pageId "empty leaf is reachable")
  | cell :: _ =>
    if maxLeafEntries < cells.length then
      .error (.corruptPage pageId "empty leaf is reachable")
    else if cell.key.len = 0 ∨ maxStoredKeySize < cell.key.len then
      .error (.corruptPage pageId "invalid leaf cell metadata")
    else do
      let (key, _) ← decodeKey pages pageId (headerSize + leafCellHeader) cell.key
      return key

/-- Follows first children from `current` down to a leaf, for at most `fuel` pages. -/
def nodeRefFrom (pages : Pages) (pageId : Nat) : Nat → Nat → Except Error NodeRef
  | 0, current => .error (excessiveDepth current)
  | fuel + 1, current => do
    match ← readPage pages current with
    | .leaf _ cells => return ⟨pageId, ← firstLeafKey pages current cells⟩
    | .internal _ first _ => nodeRefFrom pages pageId fuel first
    | page => throw (unexpectedType current page)

/-- A page with the smallest key below it. -/
def nodeRef (pages : Pages) (pageId : Nat) : Except Error NodeRef :=
  nodeRefFrom pages pageId maxTreeDepth pageId

def decodeInternalCell (pages : Pages) (pageId offset : Nat) (cell : InternalCell) :
    Except Error (NodeRef × Nat) := do
  requirePage offset internalCellHeader pageId
  if cell.key.len = 0 ∨ maxStoredKeySize < cell.key.len then
    throw (.corruptPage pageId "invalid internal cell metadata")
  let (minKey, offset) ← decodeKey pages pageId (offset + internalCellHeader) cell.key
  return (⟨cell.child, minKey⟩, offset)

def decodeInternalCells (pages : Pages) (pageId : Nat) :
    Nat → List InternalCell → Except Error (List NodeRef)
  | _, [] => .ok []
  | offset, cell :: cells => do
    let (child, offset) ← decodeInternalCell pages pageId offset cell
    let children ← decodeInternalCells pages pageId offset cells
    return child :: children

def decodeInternal (pages : Pages) (pageId first : Nat) (cells : List InternalCell) :
    Except Error (List NodeRef) :=
  if maxInternalChildren ≤ cells.length then
    .error (.corruptPage pageId ("internal page claims " ++ toString (cells.length + 1) ++
      " children but a page holds at most " ++ toString maxInternalChildren))
  else do
    let first ← nodeRef pages first
    let children ← decodeInternalCells pages pageId headerSize cells
    return first :: children

def readLeaf (pages : Pages) (pageId : Nat) : Except Error (List Entry) := do
  match ← readPage pages pageId with
  | .leaf _ cells => decodeLeaf pages pageId cells
  | page => throw (unexpectedType pageId page)

def readInternalChildren (pages : Pages) (pageId : Nat) : Except Error (List NodeRef) := do
  match ← readPage pages pageId with
  | .internal _ first cells => decodeInternal pages pageId first cells
  | page => throw (unexpectedType pageId page)

/-! ## Writing -/

/-- The pages of a blob that starts at page `pageId`, each naming the next. -/
def blobPages : Nat → Nat → Bytes → Pages
  | 0, _, _ => []
  | fuel + 1, pageId, bytes =>
    if bytes.length ≤ pageSize - headerSize then [.blob bytes 0]
    else .blob (bytes.take (pageSize - headerSize)) (pageId + 1) ::
      blobPages fuel (pageId + 1) (bytes.drop (pageSize - headerSize))

/-- Appends a blob; returns its first page (`0` for an empty one). -/
def writeBlob (pages : Pages) (bytes : Bytes) : Nat × Pages :=
  if bytes = [] then (0, pages)
  else (pages.length, pages ++ blobPages bytes.length pages.length bytes)

def encodeKey (pages : Pages) (key : Bytes) : KeyCell × Pages :=
  if inlineLimit < key.length then
    (.blob (writeBlob pages key).1 key.length, (writeBlob pages key).2)
  else (.inline key, pages)

def encodeValue : EntryValue → ValueCell
  | .inline value => .inline value
  | .external reference => .external reference.offset reference.len

def encodeLeafCell (pages : Pages) (entry : Entry) : LeafCell × Pages :=
  (⟨(encodeKey pages entry.1).1, encodeValue entry.2.value, entry.2.revision⟩,
    (encodeKey pages entry.1).2)

def encodeLeafCells : Pages → List Entry → List LeafCell × Pages
  | pages, [] => ([], pages)
  | pages, entry :: entries =>
    let (cell, pages) := encodeLeafCell pages entry
    let (cells, pages) := encodeLeafCells pages entries
    (cell :: cells, pages)

def encodeInternalCell (pages : Pages) (child : NodeRef) : InternalCell × Pages :=
  (⟨(encodeKey pages child.minKey).1, child.pageId⟩, (encodeKey pages child.minKey).2)

def encodeInternalCells : Pages → List NodeRef → List InternalCell × Pages
  | pages, [] => ([], pages)
  | pages, child :: children =>
    let (cell, pages) := encodeInternalCell pages child
    let (cells, pages) := encodeInternalCells pages children
    (cell :: cells, pages)

/-- Bytes of a page with these cells: header, cells, and the slot directory if any. -/
def cellsBytes (slots : Bool) (sizes : List Nat) : Nat :=
  headerSize + sizes.sum + if slots then sizes.length * slotSize else 0

def writeLeaf (pages : Pages) (entries : List Entry) : Except Error (NodeRef × Pages) :=
  match entries with
  | [] => .error (.corruptPage 0 "cannot write an empty leaf")
  | first :: _ =>
    let (cells, pages) := encodeLeafCells pages entries
    if pageSize < cellsBytes true (cells.map LeafCell.bytes) then
      .error (.corruptPage 0 "leaf cells overlap the slot directory")
    else .ok (⟨pages.length, first.1⟩, pages ++ [.leaf true cells])

def writeInternal (pages : Pages) (children : List NodeRef) : Except Error (NodeRef × Pages) :=
  match children with
  | [] => .error (.corruptPage 0 "cannot write an empty internal page")
  | first :: rest =>
    let (cells, pages) := encodeInternalCells pages rest
    if pageSize < cellsBytes true (cells.map InternalCell.bytes) then
      .error (.corruptPage 0 "internal cells overlap the slot directory")
    else .ok (⟨pages.length, first.minKey⟩, pages ++ [.internal true first.pageId cells])

/-- Writes one page for each chunk of a level. -/
def writeAll {α : Type} (write : Pages → List α → Except Error (NodeRef × Pages)) :
    Pages → List (List α) → Except Error (List NodeRef × Pages)
  | pages, [] => .ok ([], pages)
  | pages, chunk :: chunks => do
    let (node, pages) ← write pages chunk
    let (nodes, pages) ← writeAll write pages chunks
    return (node :: nodes, pages)

/-- The leaves' page boundaries: a cell costs its bytes and its slot. -/
def leafChunks (entries : List Entry) : List (List Entry) :=
  Packing.pack (fun entry => headerSize + (leafCellSize entry + slotSize))
    (fun entry => leafCellSize entry + slotSize) pageSize entries

def writeLeafLevel (pages : Pages) (entries : List Entry) :
    Except Error (List NodeRef × Pages) :=
  if entries.any (fun entry => pageSize - headerSize < leafCellSize entry + slotSize) then
    .error (.corruptPage 0 "leaf cell exceeds page size")
  else writeAll writeLeaf pages (leafChunks entries)

/-- The internal pages' boundaries: the first child of a page sits in the header and costs
    nothing. -/
def internalChunks (children : List NodeRef) : List (List NodeRef) :=
  Packing.pack (fun _ => headerSize + 8)
    (fun child => internalCellSize child.minKey + slotSize) pageSize children

def writeInternalLevel (pages : Pages) (children : List NodeRef) :
    Except Error (List NodeRef × Pages) :=
  writeAll writeInternal pages (internalChunks children)

end Vyrn
