import Vyrn.Engine.Overlay

/-!
# Read handles

Reads are served by handles of their own. A `ReadEngine` has a tree of some generation and, with
write-back on, its own copy of the write-back buffer: `refresh` moves it to a newer root,
`publishWriteBack` teaches it a commit's mutations and drops what the tree has absorbed, and
`evictWriteBackThrough` only drops. The handle is generic in how a tree is held, since none of the
three looks into it.
-/

namespace Vyrn

open SortedMap

variable {mutations : List (Bytes × Option Bytes)} {buffer : Overlay}

/-! ## The code -/

structure PublishedMutation where
  key : Bytes
  value : Option Bytes
  revision : Nat
  deriving DecidableEq, Repr

/-- What one commit asks the read handles to learn. -/
structure WriteBackPublish where
  mutations : List PublishedMutation
  absorbedThrough : Option Nat
  deriving DecidableEq, Repr

def WriteBackPublish.isEmpty (publish : WriteBackPublish) : Bool :=
  publish.mutations.isEmpty && publish.absorbedThrough.isNone

/-- Drops the entries at or below an LSN. -/
def Overlay.evictThrough (buffer : Overlay) (lsn : Nat) : Overlay :=
  let freed := ((buffer.entries.filter (fun e => decide (e.2.revision ≤ lsn))).map
    (fun e => entryOverhead + e.1.length + e.2.valueLen)).sum
  { buffer with
    entries := buffer.entries.filter (fun e => decide (lsn < e.2.revision))
    bytes := buffer.bytes - freed }

structure ReadEngine (T : Type) where
  generation : Nat
  tree : T
  overlay : Option Overlay
  overlayEvictedThrough : Nat
  deriving DecidableEq, Repr

section Handle

variable {T : Type}

/-- Learns one durable write-back commit: its mutations, then what may be dropped. -/
def ReadEngine.publishWriteBack (reader : ReadEngine T) (publish : WriteBackPublish) :
    Except Error (ReadEngine T) :=
  if publish.isEmpty then .ok reader
  else
    match reader.overlay with
    | none =>
      .error (.writeBackMismatch
        "commit published to a read handle opened without write-back replay")
    | some overlay =>
      let overlay := publish.mutations.foldl
        (fun overlay m => overlay.record m.key ⟨m.value, m.revision⟩) overlay
      match publish.absorbedThrough with
      | none => .ok { reader with overlay := some overlay }
      | some absorbed =>
        if reader.overlayEvictedThrough < absorbed then
          .ok { reader with
            overlay := some (overlay.evictThrough absorbed)
            overlayEvictedThrough := absorbed }
        else .ok { reader with overlay := some overlay }

def ReadEngine.evictWriteBackThrough (reader : ReadEngine T) (lsn : Nat) : ReadEngine T :=
  match reader.overlay with
  | none => reader
  | some overlay =>
    if reader.overlayEvictedThrough < lsn then
      { reader with overlay := some (overlay.evictThrough lsn), overlayEvictedThrough := lsn }
    else reader

/-- Moves to a newer root. A generation below the handle's own is ignored; the files of another one
    have to be there. -/
def ReadEngine.refresh (reader : ReadEngine T) (generation : Nat) (tree : T) (retired : Bool) :
    Except Error (ReadEngine T) :=
  if generation < reader.generation then .ok reader
  else if generation ≠ reader.generation then
    if retired then .error (.io "No such file or directory (os error 2)")
    else .ok { reader with tree := tree, generation := generation }
  else .ok { reader with tree := tree }

end Handle

/-! ## The buffer of a handle -/

theorem Overlay.get_record (buffer : Overlay) (key : Bytes) (entry : BufferedEntry) (j : Bytes) :
    (buffer.record key entry).get j = if j = key then some entry else buffer.get j := by
  rw [Overlay.get, Overlay.record, lookup_put]
  split_ifs <;> rfl

theorem Overlay.evictThrough_wellFormed (h : buffer.WellFormed) (lsn : Nat) :
    (buffer.evictThrough lsn).WellFormed :=
  Sorted.filter h _

/-- An entry survives an eviction when it is newer. -/
theorem Overlay.get_evictThrough (h : buffer.WellFormed) (lsn : Nat) (key : Bytes)
    {entry : BufferedEntry} :
    (buffer.evictThrough lsn).get key = some entry ↔
      buffer.get key = some entry ∧ lsn < entry.revision := by
  rw [Overlay.get, Overlay.get, lookup_eq_some (Overlay.evictThrough_wellFormed h lsn),
    lookup_eq_some h]
  show (key, entry) ∈ buffer.entries.filter (fun e => decide (lsn < e.2.revision)) ↔ _
  rw [List.mem_filter]
  exact and_congr_right (fun _ => decide_eq_true_iff)

/-- The buffer with the mutations of a publication. -/
abbrev Overlay.recordEach (buffer : Overlay) (mutations : List PublishedMutation) : Overlay :=
  mutations.foldl (fun overlay m => overlay.record m.key ⟨m.value, m.revision⟩) buffer

theorem Overlay.recordEach_wellFormed {mutations : List PublishedMutation}
    (h : buffer.WellFormed) : (buffer.recordEach mutations).WellFormed :=
  List.foldlRecOn mutations _ h (fun _ hb _ _ => Overlay.record_wellFormed hb _ _)

/-- What a publication can do to a handle: nothing, or its buffer learns the mutations and drops
    some entries. -/
theorem ReadEngine.publishWriteBack_cases {T : Type} {reader after : ReadEngine T}
    {publish : WriteBackPublish} (h : reader.publishWriteBack publish = .ok after) :
    after = reader ∨ ∃ overlay buffer evicted, reader.overlay = some overlay ∧
      buffer.entries ⊆ (overlay.recordEach publish.mutations).entries ∧
      after = { reader with overlay := some buffer, overlayEvictedThrough := evicted } := by
  rw [ReadEngine.publishWriteBack] at h
  split_ifs at h
  · cases h
    exact .inl rfl
  · split at h
    · cases h
    · next overlay hoverlay =>
        dsimp only at h
        right
        split at h
        · cases h
          exact ⟨overlay, _, _, hoverlay, List.Subset.refl _, rfl⟩
        · split_ifs at h <;> cases h
          · exact ⟨overlay, _, _, hoverlay, List.filter_subset_self _, rfl⟩
          · exact ⟨overlay, _, _, hoverlay, List.Subset.refl _, rfl⟩

/-- What a commit's mutations, in order, leave of a key's value. -/
def written (key : Bytes) (value : Option Bytes) (mutations : List (Bytes × Option Bytes)) :
    Option Bytes :=
  mutations.foldl (fun value m => if m.1 = key then m.2 else value) value

/-- After a commit's mutations a key has its last one, or the value and the entry it had. -/
theorem Overlay.get_recordEach {revision : Nat} (key : Bytes) (buffer : Overlay)
    (value : Option Bytes) :
    (buffer.recordEach (mutations.map (fun m => ⟨m.1, m.2, revision⟩))).get key
        = some ⟨written key value mutations, revision⟩ ∨
      written key value mutations = value ∧
        (buffer.recordEach (mutations.map (fun m => ⟨m.1, m.2, revision⟩))).get key
          = buffer.get key := by
  induction mutations generalizing buffer value with
  | nil => exact .inr ⟨rfl, rfl⟩
  | cons m rest ih =>
    rw [written, List.foldl_cons, List.map_cons, Overlay.recordEach, List.foldl_cons]
    rcases ih (buffer.record m.1 ⟨m.2, revision⟩) (if m.1 = key then m.2 else value) with
      hlast | ⟨hvalue, hget⟩
    · exact .inl hlast
    · rw [written] at hvalue
      rw [hvalue, hget, Overlay.get_record]
      by_cases hkey : m.1 = key
      · rw [if_pos hkey, if_pos hkey.symm]
        exact .inl rfl
      · rw [if_neg hkey, if_neg (Ne.symm hkey)]
        exact .inr ⟨rfl, rfl⟩

end Vyrn
