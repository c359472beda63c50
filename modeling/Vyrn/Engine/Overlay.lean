import Vyrn.PageTree.Deep

/-!
# The write-back buffer — committed mutations the tree has not absorbed

With write-back on, a commit's mutations land in an `Overlay`, and every read merges it over
the tree. `overlaid` is what the two hold together: the tree's map with the buffered mutations
applied. The merged reads read it (`mergedGet_ok`, `mergedRevision_ok`,
`mergedGetManyRevisions_ok`, `mergedGetManyWithRevision_ok`), and recording a mutation updates
it (`overlaid_record`).
-/

namespace Vyrn

open SortedMap List

/-! ## The code -/

/-- The newest committed state of a key that the tree does not know yet. `none` is a delete. -/
structure BufferedEntry where
  value : Option Bytes
  revision : Nat
  deriving DecidableEq, Repr

structure Overlay where
  entries : List (Bytes × BufferedEntry)
  bytes : Nat
  flushBytes : Nat
  deriving DecidableEq, Repr

def entryOverhead : Nat := 64

def Overlay.new (flushBytes : Nat) : Overlay := ⟨[], 0, flushBytes⟩

def Overlay.get (buffer : Overlay) (key : Bytes) : Option BufferedEntry :=
  lookup key buffer.entries

def BufferedEntry.valueLen (entry : BufferedEntry) : Nat :=
  (entry.value.map length).getD 0

/-- Records a committed mutation over any earlier state of the key. -/
def Overlay.record (buffer : Overlay) (key : Bytes) (entry : BufferedEntry) : Overlay :=
  { buffer with
    entries := put key entry buffer.entries
    bytes :=
      match buffer.get key with
      | some previous => buffer.bytes - previous.valueLen + entry.valueLen
      | none => buffer.bytes + entryOverhead + key.length + entry.valueLen }

def Overlay.isEmpty (buffer : Overlay) : Bool := buffer.entries.isEmpty

def Overlay.shouldFlush (buffer : Overlay) : Bool := buffer.flushBytes ≤ buffer.bytes

def Overlay.clear (buffer : Overlay) : Overlay := ⟨[], 0, buffer.flushBytes⟩

/-- The buffered state of a key, when there is a buffer and it knows the key. -/
def buffered (buffer : Option Overlay) (key : Bytes) : Option BufferedEntry :=
  buffer.bind (fun buffer => buffer.get key)

def mergedGet (tree : PageTree) (buffer : Option Overlay) (key : Bytes) :
    Except Error (Option Bytes) :=
  match buffered buffer key with
  | some entry => .ok entry.value
  | none => tree.get key

def mergedRevision (tree : PageTree) (buffer : Option Overlay) (key : Bytes) :
    Except Error (Option Nat) :=
  match buffered buffer key with
  | some entry => .ok (entry.value.map (fun _ => entry.revision))
  | none => tree.revision key

/-- Puts the tree's answers into the places the buffer left open. -/
def fillMisses {α : Type} (answer : BufferedEntry → Option α) (buffer : Overlay) :
    List Bytes → List (Option α) → List (Option α)
  | [], _ => []
  | key :: keys, found =>
    match buffer.get key with
    | some entry => answer entry :: fillMisses answer buffer keys found
    | none => found.head?.join :: fillMisses answer buffer keys found.tail

/-- Sorted distinct keys: the buffer answers those it knows, the tree the others in one
    sweep. -/
def mergedMany {α : Type} (answer : BufferedEntry → Option α)
    (sweep : List Bytes → Except Error (List (Option α))) (buffer : Option Overlay)
    (keys : List Bytes) : Except Error (List (Option α)) :=
  match buffer with
  | none => sweep keys
  | some buffer =>
    if buffer.isEmpty then sweep keys
    else do
      let found ← sweep (keys.filter (fun key => (buffer.get key).isNone))
      return fillMisses answer buffer keys found

def mergedGetManyRevisions (tree : PageTree) (buffer : Option Overlay) (keys : List Bytes) :
    Except Error (List (Option Nat)) :=
  mergedMany (fun entry => entry.value.map (fun _ => entry.revision)) tree.getManyRevisions
    buffer keys

def mergedGetManyWithRevision (tree : PageTree) (buffer : Option Overlay)
    (keys : List Bytes) : Except Error (List (Option Versioned)) :=
  mergedMany (fun entry => entry.value.map (fun value => ⟨value, entry.revision⟩))
    tree.getManyWithRevision buffer keys

/-! ## What the tree and the buffer hold together -/

/-- The row a buffered entry stands for. -/
def BufferedEntry.row (entry : BufferedEntry) : Option Versioned :=
  entry.value.map (fun value => ⟨value, entry.revision⟩)

/-- The buffered mutations as updates. -/
def Overlay.updates (buffer : Overlay) : List (Bytes × Option Versioned) :=
  buffer.entries.map (fun e => (e.1, e.2.row))

/-- The tree's rows under the buffer. -/
def overlaid (rows : Rows) (buffer : Option Overlay) :
    Rows :=
  updateAll rows ((buffer.map Overlay.updates).getD [])

/-- The buffer's keys are in order, each once. -/
def Overlay.WellFormed (buffer : Overlay) : Prop := Sorted buffer.entries

variable {rows : Rows} {buffer : Overlay}

theorem overlaid_none (rows : Rows) : overlaid rows none = rows := rfl

/-- An empty buffer hides nothing. -/
theorem overlaid_of_empty {buffer : Option Overlay} (h : ∀ b, buffer = some b → b.entries = [])
    (rows : Rows) : overlaid rows buffer = rows := by
  cases buffer with
  | none => rfl
  | some b =>
    rw [overlaid, Option.map_some, Option.getD_some, Overlay.updates, h b rfl]
    rfl

theorem Overlay.record_wellFormed (h : buffer.WellFormed) (key : Bytes) (entry : BufferedEntry) :
    (buffer.record key entry).WellFormed :=
  Sorted.put h key entry

/-- What is in the buffer after some entries were recorded was there, or is one of them. -/
theorem Overlay.mem_recorded {α : Type} {key : α → Bytes} {entry : α → BufferedEntry}
    {xs : List α} {e : Bytes × BufferedEntry} :
    e ∈ (xs.foldl (fun buffer x => buffer.record (key x) (entry x)) buffer).entries →
      e ∈ buffer.entries ∨ ∃ x ∈ xs, e = (key x, entry x) := by
  refine foldlRecOn xs _ (motive := fun b : Overlay => e ∈ b.entries → _) .inl
    (fun b ih x hx h => ?_)
  rcases mem_put h with rfl | hold
  · exact .inr ⟨x, hx, rfl⟩
  · exact ih hold

theorem overlaid_sorted (h : Sorted rows) (buffer : Option Overlay) :
    Sorted (overlaid rows buffer) :=
  Sorted.updateAll h _

/-- **MERGE**: the buffer answers for the keys it knows, the tree for the others. -/
theorem lookup_overlaid {buffer : Option Overlay} (h : ∀ b, buffer = some b → b.WellFormed)
    (key : Bytes) :
    lookup key (overlaid rows buffer)
      = match buffered buffer key with
        | some entry => entry.row
        | none => lookup key rows := by
  rw [overlaid, lookup_updateAll]
  cases buffer with
  | none => rfl
  | some b =>
    rw [Option.map_some, Option.getD_some, Overlay.updates,
      lastUpdate_map_of_sorted (h b rfl) BufferedEntry.row key, ← Overlay.get, buffered,
      Option.bind_some]
    cases b.get key with
    | none => rfl
    | some => rfl

/-- Recording a mutation updates the merged map. -/
theorem overlaid_record (hs : Sorted rows) (h : buffer.WellFormed) (key : Bytes)
    (entry : BufferedEntry) :
    overlaid rows (some (buffer.record key entry))
      = update (overlaid rows (some buffer)) (key, entry.row) := by
  have hrec : ∀ b, some (buffer.record key entry) = some b → b.WellFormed := by
    rintro _ ⟨⟩
    exact Overlay.record_wellFormed h key entry
  have hold : ∀ b, some buffer = some b → b.WellFormed := by
    rintro _ ⟨⟩
    exact h
  refine ext_lookup (overlaid_sorted hs _) (Sorted.update (overlaid_sorted hs _) _) (fun j => ?_)
  rw [lookup_overlaid hrec, lookup_update, lookup_overlaid hold]
  rw [buffered, buffered, Option.bind_some, Option.bind_some, Overlay.get, Overlay.record,
    lookup_put]
  split_ifs
  · rfl
  · rfl

/-! ## The merged reads -/

section Reads

variable {ordered : Bool} {tree : PageTree} {levels : Nat} {rows : Rows}
  {buffer : Option Overlay} {keys : List Bytes}

section

variable (ht : Denotes ordered tree levels rows) (hd : levels ≤ maxTreeDepth)
  (hb : ∀ b, buffer = some b → b.WellFormed) (key : Bytes)
include ht hd hb key

theorem mergedRevision_ok :
    mergedRevision tree buffer key
      = .ok ((lookup key (overlaid rows buffer)).map Versioned.revision) := by
  rw [mergedRevision, lookup_overlaid hb]
  cases buffered buffer key with
  | none =>
    rw [PageTree.revision, (getWithRevision_denotes ht hd key).1]
    rfl
  | some entry =>
    obtain ⟨value, revision⟩ := entry
    cases value with
    | none => rfl
    | some => rfl

end

theorem fillMisses_eq {α : Type} (answer : BufferedEntry → Option α) (buffer : Overlay)
    (f : Bytes → Option α) (keys : List Bytes) :
    fillMisses answer buffer keys
        ((keys.filter (fun key => (buffer.get key).isNone)).map f)
      = keys.map (fun key =>
          match buffer.get key with
          | some entry => answer entry
          | none => f key) := by
  induction keys with
  | nil => rfl
  | cons key keys ih =>
    rw [fillMisses, map_cons]
    cases hget : buffer.get key with
    | some =>
      rw [filter_cons_of_neg (by simp [hget]), ih]
    | none =>
      rw [filter_cons_of_pos (by simp [hget]), map_cons, head?_cons, tail_cons, ih]
      rfl

/-- The keys a merged read can answer: all while the tree is within the depth bound, below it
    those the buffer knows. -/
def Reaches (levels : Nat) (buffer : Option Overlay) (keys : List Bytes) : Prop :=
  levels ≤ maxTreeDepth ∨ ∀ key ∈ keys, (buffered buffer key).isSome = true

theorem Reaches.mono {keys' : List Bytes} (h : Reaches levels buffer keys)
    (hsub : ∀ key ∈ keys', key ∈ keys) : Reaches levels buffer keys' :=
  h.imp id (fun hall key hkey => hall key (hsub key hkey))

/-- Without a buffer only the tree can answer. -/
theorem Reaches.shallow (h : Reaches levels buffer keys) (hne : keys ≠ []) (hnone : buffer = none) :
    levels ≤ maxTreeDepth := by
  rcases h with hd | hall
  · exact hd
  · obtain ⟨key, rest, rfl⟩ := exists_cons_of_ne_nil hne
    have hsome := hall key mem_cons_self
    rw [hnone] at hsome
    cases hsome

theorem mergedGet_ok (ht : Denotes ordered tree levels rows)
    (hb : ∀ b, buffer = some b → b.WellFormed) {key : Bytes}
    (hd : Reaches levels buffer [key]) :
    mergedGet tree buffer key
      = .ok ((lookup key (overlaid rows buffer)).map Versioned.value) := by
  rw [mergedGet, lookup_overlaid hb]
  cases hentry : buffered buffer key with
  | none =>
    rcases hd with hd | hall
    · rw [PageTree.get, (getWithRevision_denotes ht hd key).1]
      rfl
    · have hsome := hall key mem_cons_self
      rw [hentry] at hsome
      cases hsome
  | some entry =>
    obtain ⟨value, revision⟩ := entry
    cases value with
    | none => rfl
    | some => rfl

/-- The keys that are left to the tree. -/
theorem misses_nil {b : Overlay} (hall : ∀ key ∈ keys, (buffered (some b) key).isSome = true) :
    keys.filter (fun key => (b.get key).isNone) = [] := by
  rw [filter_eq_nil_iff]
  intro key hkey
  have hsome : (b.get key).isSome = true := hall key hkey
  rw [Option.isNone_iff_eq_none, ← Option.not_isSome_iff_eq_none, not_not]
  exact hsome

/-- A merged sweep answers as a sweep of the merged map would. -/
theorem mergedMany_ok {α : Type} {answer : BufferedEntry → Option α}
    {sweep : List Bytes → Except Error (List (Option α))} {read : Versioned → α}
    (hb : ∀ b, buffer = some b → b.WellFormed)
    (hanswer : ∀ entry : BufferedEntry, answer entry = entry.row.map read)
    (hsweep : ∀ keys : List Bytes, keys.Pairwise (· < ·) → levels ≤ maxTreeDepth ∨ keys = [] →
      sweep keys = .ok (keys.map (fun key => (lookup key rows).map read)))
    {keys : List Bytes} (hk : keys.Pairwise (· < ·)) (hd : Reaches levels buffer keys) :
    mergedMany answer sweep buffer keys
      = .ok (keys.map (fun key => (lookup key (overlaid rows buffer)).map read)) := by
  cases buffer with
  | none =>
    refine hsweep keys hk (hd.imp id (fun hall => eq_nil_iff_forall_not_mem.mpr ?_))
    intro key hkey
    cases hall key hkey
  | some b =>
    rw [mergedMany]
    split_ifs with hempty
    · have hnil : b.entries = [] := isEmpty_iff.mp hempty
      have hreach : levels ≤ maxTreeDepth ∨ keys = [] := by
        refine hd.imp id (fun hall => eq_nil_iff_forall_not_mem.mpr (fun key hkey => ?_))
        have hsome := hall key hkey
        rw [buffered, Option.bind_some, Overlay.get, hnil] at hsome
        cases hsome
      rw [hsweep keys hk hreach, overlaid_of_empty (fun _ hb => Option.some.inj hb ▸ hnil)]
    · rw [hsweep _ (hk.sublist filter_sublist) (hd.imp id misses_nil), ok_bind, fillMisses_eq]
      refine congrArg Except.ok (map_congr_left (fun key _ => ?_))
      rw [lookup_overlaid hb, buffered, Option.bind_some]
      cases b.get key with
      | none => rfl
      | some entry => exact hanswer entry

/-- A merged sweep for a key out of reach fails. -/
theorem mergedMany_deep {α : Type} {answer : BufferedEntry → Option α}
    {sweep : List Bytes → Except Error (List (Option α))}
    (hsweep : ∀ keys, maxTreeDepth < levels → keys ≠ [] → ∃ error, sweep keys = .error error)
    (hdeep : ¬ Reaches levels buffer keys) :
    ∃ error, mergedMany answer sweep buffer keys = .error error := by
  rw [Reaches, not_or, not_le] at hdeep
  obtain ⟨hd, hmiss⟩ := hdeep
  push Not at hmiss
  obtain ⟨key, hkey, hnone⟩ := hmiss
  have hne : keys ≠ [] := ne_nil_of_mem hkey
  cases buffer with
  | none => exact hsweep keys hd hne
  | some =>
    rw [mergedMany]
    split_ifs
    · exact hsweep keys hd hne
    · refine bind_fails _ (hsweep _ hd (ne_nil_of_mem (mem_filter.mpr ⟨hkey, ?_⟩)))
      rw [Option.isNone_iff_eq_none, ← Option.not_isSome_iff_eq_none]
      exact hnone

section

variable (ht : Denotes ordered tree levels rows)
include ht

theorem getMany_reaches (hk : keys.Pairwise (· < ·)) (hd : levels ≤ maxTreeDepth ∨ keys = []) :
    tree.getManyWithRevision keys = .ok (keys.map (fun key => lookup key rows)) ∧
      tree.getManyRevisions keys
        = .ok (keys.map (fun key => (lookup key rows).map Versioned.revision)) := by
  rcases hd with hd | rfl
  · exact getMany_denotes ht hd hk
  · rw [PageTree.getManyWithRevision, PageTree.getManyRevisions, PageTree.collect,
      PageTree.collect, if_neg (fun h => h.2 rfl), if_neg (fun h => h.2 rfl)]
    exact ⟨rfl, rfl⟩

theorem mergedGetManyRevisions_ok (hb : ∀ b, buffer = some b → b.WellFormed)
    (hk : keys.Pairwise (· < ·)) (hd : Reaches levels buffer keys) :
    mergedGetManyRevisions tree buffer keys
      = .ok (keys.map (fun key =>
          (lookup key (overlaid rows buffer)).map Versioned.revision)) := by
  refine mergedMany_ok hb (fun entry => ?_) (fun keys hk hd => (getMany_reaches ht hk hd).2) hk hd
  rw [BufferedEntry.row, Option.map_map]
  rfl

theorem mergedGetManyWithRevision_ok (hb : ∀ b, buffer = some b → b.WellFormed)
    (hk : keys.Pairwise (· < ·)) (hd : Reaches levels buffer keys) :
    mergedGetManyWithRevision tree buffer keys
      = .ok (keys.map (fun key => lookup key (overlaid rows buffer))) := by
  have h := @mergedMany_ok levels rows buffer Versioned
    (fun entry => entry.value.map (fun value => ⟨value, entry.revision⟩))
    tree.getManyWithRevision id hb (fun entry => by rw [Option.map_id]; rfl)
    (fun keys hk hd => by simpa using (getMany_reaches ht hk hd).1) keys hk hd
  simpa [mergedGetManyWithRevision] using h

end

end Reads

end Vyrn
