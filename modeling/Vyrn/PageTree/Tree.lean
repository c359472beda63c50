import Vyrn.PageTree.Rewrite

/-!
# The page tree — a mutable ordered map over two append-only files

`PageTree` is the writer's handle: the page file, the value log, and the root and entry count
last published. A mutation appends and returns the root and count it would publish; until `publish`,
and after, the old root reads as before. `Denotes t levels rows`: `t` is a well-formed tree of that
many levels and the map it holds is `rows`. **`prepareBatch_denotes`**, **`preparePut_denotes`** and
**`prepareDelete_denotes`**: the mutations refine the map's updates.
-/

namespace Vyrn

open SortedMap List

/-! ## The code -/

structure PageTree where
  pages : Pages
  values : Bytes
  root : Nat
  len : Nat
  deriving DecidableEq, Repr

/-- Makes a prepared root current. -/
def PageTree.publish (tree : PageTree) (root len : Nat) : PageTree :=
  { tree with root := root, len := len }

inductive Mutation where
  | put (value : Bytes) (revision : Nat)
  | delete
  deriving DecidableEq, Repr

/-- The root and entry count a mutation would publish. -/
structure BatchOutcome where
  root : Nat
  len : Nat
  deriving DecidableEq, Repr

/-- A value within the inline limit stays in its page, a longer one goes to the value log. -/
def storeValue (values value : Bytes) (revision : Nat) : Except Error (Stored × Bytes) :=
  if inlineLimit < value.length then do
    let (reference, values) ← ValueLog.append values value revision
    return (⟨.external reference, revision⟩, values)
  else .ok (⟨.inline value, revision⟩, values)

/-- Stores the values of a batch in order and numbers its mutations. -/
def prepareMutations : Nat → Bytes → List (Bytes × Mutation) →
    Except Error (List PreparedMutation × Bytes)
  | _, values, [] => .ok ([], values)
  | index, values, (key, .put value revision) :: rest => do
    let (stored, values) ← storeValue values value revision
    let (prepared, values) ← prepareMutations (index + 1) values rest
    return (⟨key, some stored, index⟩ :: prepared, values)
  | index, values, (key, .delete) :: rest => do
    let (prepared, values) ← prepareMutations (index + 1) values rest
    return (⟨key, none, index⟩ :: prepared, values)

/-- Adds levels until one node is left. Every turn shortens the row, so its length is fuel
    enough. -/
def growRoot : Nat → Pages → List NodeRef → Except Error (List NodeRef × Pages)
  | 0, pages, nodes => .ok (nodes, pages)
  | fuel + 1, pages, nodes =>
    if 1 < nodes.length then do
      let (nodes, pages) ← writeInternalLevel pages nodes
      growRoot fuel pages nodes
    else .ok (nodes, pages)

/-- The change in the entry count a key's last mutation makes. -/
def lenChange (value : Option Stored) (existed : Bool) : Int :=
  match value, existed with
  | some _, false => 1
  | none, true => -1
  | _, _ => 0

/-- One change per run of equal keys: its last mutation against the presence recorded for its
    first, `first` being that one's index. -/
def lenDelta (existed : Nat → Bool) : Nat → List PreparedMutation → Int
  | _, [] => 0
  | first, mutation :: rest =>
    match rest with
    | [] => lenChange mutation.value (existed first)
    | next :: _ =>
      if next.key = mutation.key then lenDelta existed first rest
      else lenChange mutation.value (existed first) + lenDelta existed next.index rest

/-- The first node's page, or `0` when there is none. -/
def rootOf (nodes : List NodeRef) : Nat :=
  (nodes.head?.map NodeRef.pageId).getD 0

def applyRoot (tree : PageTree) (prepared : List PreparedMutation) :
    Except Error (List NodeRef × (Nat → Bool) × Pages) :=
  if tree.root = 0 then
    let (entries, existed) := mergeEntries [] prepared (fun _ => false)
    if entries = [] then .ok ([], existed, tree.pages)
    else do
      let (nodes, pages) ← writeLeafLevel tree.pages entries
      return (nodes, existed, pages)
  else applyNode maxTreeDepth true tree.pages tree.root prepared (fun _ => false)

/-- Applies many mutations in one copy-on-write pass. -/
def PageTree.prepareBatch (tree : PageTree) (mutations : List (Bytes × Mutation)) :
    Except Error (BatchOutcome × PageTree) :=
  if mutations = [] then .ok (⟨tree.root, tree.len⟩, tree)
  else do
    let (prepared, values) ← prepareMutations 0 tree.values mutations
    let prepared := prepared.insertionSort (fun a b => a.key ≤ b.key)
    let (nodes, existed, pages) ← applyRoot tree prepared
    let (nodes, pages) ← growRoot nodes.length pages nodes
    let delta := lenDelta existed ((prepared.head?.map PreparedMutation.index).getD 0) prepared
    let root := rootOf nodes
    let len := if root = 0 then 0 else (tree.len + delta).toNat
    return (⟨root, len⟩, { tree with pages := pages, values := values })

/-- Puts one key. -/
def PageTree.preparePut (tree : PageTree) (key value : Bytes) (revision : Nat) :
    Except Error (BatchOutcome × PageTree) := do
  let (stored, values) ← storeValue tree.values value revision
  if tree.root = 0 then
    let (node, pages) ← writeLeaf tree.pages [(key, stored)]
    return (⟨node.pageId, 1⟩, { tree with pages := pages, values := values })
  let (leaf, path) ← findLeaf tree.pages tree.root key
  let entries ← readLeaf tree.pages leaf
  let (_, existed) := findEntry entries key
  let (nodes, pages) ← writeLeafLevel tree.pages (spliceEntry entries (key, stored))
  let (nodes, pages) ← rebuildPath pages nodes path
  let len := tree.len + if existed then 0 else 1
  match nodes with
  | [node] => return (⟨node.pageId, len⟩, { tree with pages := pages, values := values })
  | _ =>
    let (node, pages) ← writeInternal pages nodes
    return (⟨node.pageId, len⟩, { tree with pages := pages, values := values })

/-- Deletes one key; `none` when it is absent, with nothing written. -/
def PageTree.prepareDelete (tree : PageTree) (key : Bytes) :
    Except Error (Option BatchOutcome × PageTree) :=
  if tree.root = 0 then .ok (none, tree)
  else do
    let (leaf, _) ← findLeaf tree.pages tree.root key
    match ← lookupInLeaf tree.pages leaf key with
    | none => return (none, tree)
    | some _ =>
      let (nodes, _, pages) ← applyNode maxTreeDepth true tree.pages tree.root
        [⟨key, none, 0⟩] (fun _ => true)
      let (nodes, pages) ← growRoot nodes.length pages nodes
      return (some ⟨rootOf nodes, tree.len - 1⟩, { tree with pages := pages })

/-! ## The abstraction -/

/-- A value with the revision that wrote it. -/
structure Versioned where
  value : Bytes
  revision : Nat
  deriving DecidableEq, Repr

/-- A map in the order of its keys. -/
abbrev Rows := List (Bytes × Versioned)

/-- The bytes of a stored value. -/
def resolve (values : Bytes) : EntryValue → Except Error Bytes
  | .inline value => .ok value
  | .external reference => ValueLog.read values reference

/-- `stored` is `versioned`, read through the value log. -/
def Resolves (values : Bytes) (stored : Stored) (versioned : Versioned) : Prop :=
  resolve values stored.value = .ok versioned.value ∧ stored.revision = versioned.revision

/-- A root of so many levels; an empty tree has none and is named by page `0`. -/
def Rooted (ordered : Bool) (pages : Pages) (root : Nat) : Nat → List Entry → Prop
  | 0, entries => root = 0 ∧ entries = []
  | h + 1, entries => Node ordered h pages root entries

/-- **WELL-FORMED**: `tree` is a well-formed tree of `levels` levels that holds the map `rows`.
    With `ordered` its pages name only pages before them. -/
def Denotes (ordered : Bool) (tree : PageTree) (levels : Nat)
    (rows : Rows) : Prop :=
  ∃ entries, SuperFirst tree.pages ∧ Rooted ordered tree.pages tree.root levels entries ∧
    tree.len = entries.length ∧ Related (Resolves tree.values) entries rows

/-- The update a mutation stands for. -/
def Mutation.update (mutation : Bytes × Mutation) : Bytes × Option Versioned :=
  match mutation.2 with
  | .put value revision => (mutation.1, some ⟨value, revision⟩)
  | .delete => (mutation.1, none)

/-- What callers check before a mutation gets here: a put has an admissible key, value and
    revision. -/
def Mutation.Admissible (mutation : Bytes × Mutation) : Prop :=
  match mutation.2 with
  | .put value revision => StoredKey mutation.1 ∧ ValueLog.Admissible revision value
  | .delete => True

/-- Pages and values are only ever appended, and the value log stays one of whole records. -/
structure Grows (tree tree' : PageTree) : Prop where
  pages : tree.pages <+: tree'.pages
  values : tree.values <+: tree'.values
  whole : ValueLog.Whole tree.values → ValueLog.Whole tree'.values

variable {ordered : Bool} {value values values' : Bytes} {mutations : List (Bytes × Mutation)}
  {rows : Rows} {levels revision : Nat} {tree tree' : PageTree} {prepared : List PreparedMutation}
  {entries : List Entry} {pages : Pages}

theorem Grows.refl (tree : PageTree) : Grows tree tree :=
  ⟨prefix_rfl, prefix_rfl, fun h => h⟩

theorem Grows.trans {a b c : PageTree} (h : Grows a b) (h' : Grows b c) : Grows a c :=
  ⟨h.pages.trans h'.pages, h.values.trans h'.values, fun hw => h'.whole (h.whole hw)⟩

/-! ## Storing values -/

theorem Resolves.mono (h : values <+: values') {stored : Stored} {versioned : Versioned}
    (hr : Resolves values stored versioned) : Resolves values' stored versioned := by
  obtain ⟨more, rfl⟩ := h
  obtain ⟨hvalue, hrev⟩ := hr
  refine ⟨?_, hrev⟩
  cases hv : stored.value with
  | inline => rw [hv] at hvalue; exact hvalue
  | external =>
    rw [hv] at hvalue
    exact ValueLog.read_mono more hvalue

/-- A stored value resolves to what was stored. -/
theorem storeValue_spec (values : Bytes) (ha : ValueLog.Admissible revision value) :
    ∃ stored values', storeValue values value revision = .ok (stored, values') ∧
      values <+: values' ∧ (ValueLog.Whole values → ValueLog.Whole values') ∧
      Resolves values' stored ⟨value, revision⟩ ∧
      ∀ key, StoredKey key → StoredEntry (key, stored) := by
  rw [storeValue]
  split_ifs with hlong
  · obtain ⟨happend, hread⟩ := ValueLog.read_append values ha
    refine ⟨⟨.external ⟨values.length, value.length, revision⟩, revision⟩, _, ?_,
      prefix_append _ _, fun hw => hw.append ha, ⟨hread, rfl⟩,
      fun key hk => ⟨hk, hlong, ha.2, rfl⟩⟩
    rw [happend]
    rfl
  · exact ⟨⟨.inline value, revision⟩, values, rfl, prefix_refl values, id, ⟨rfl, rfl⟩,
      fun key hk => ⟨hk, not_lt.mp hlong⟩⟩

/-- The prepared mutations stand for these, numbered from `index` on, with their values stored. -/
structure StandsFor (index : Nat) (values values' : Bytes) (mutations : List (Bytes × Mutation))
    (prepared : List PreparedMutation) : Prop where
  grows : values <+: values'
  whole : ValueLog.Whole values → ValueLog.Whole values'
  related : Forall₂ (RelatedUpdate (Resolves values')) (updates prepared)
    (mutations.map Mutation.update)
  apart : prepared.Pairwise (fun a b => a.index ≠ b.index)
  numbered : ∀ p ∈ prepared, index ≤ p.index
  stored : ∀ p ∈ prepared, ∀ stored, p.value = some stored → StoredEntry (p.key, stored)

/-- One more prepared mutation, numbered `index`, in front. -/
theorem StandsFor.cons {index : Nat} {values₁ : Bytes} {m : Bytes × Mutation}
    {value : Option Stored} (h : StandsFor (index + 1) values₁ values' mutations prepared)
    (hgrow : values <+: values₁) (hwhole : ValueLog.Whole values → ValueLog.Whole values₁)
    (hrel : RelatedUpdate (Resolves values') (m.1, value) (Mutation.update m))
    (hvalid : ∀ stored, value = some stored → StoredEntry (m.1, stored)) :
    StandsFor index values values' (m :: mutations) (⟨m.1, value, index⟩ :: prepared) where
  grows := hgrow.trans h.grows
  whole := h.whole ∘ hwhole
  related := .cons hrel h.related
  apart := pairwise_cons.mpr ⟨fun p hp => (Nat.lt_of_succ_le (h.numbered p hp)).ne, h.apart⟩
  numbered := forall_mem_cons.mpr ⟨le_rfl, fun p hp => Nat.le_of_succ_le (h.numbered p hp)⟩
  stored := forall_mem_cons.mpr ⟨hvalid, h.stored⟩

/-- Prepared mutations stand for those they were made from. -/
theorem prepareMutations_spec (index : Nat) (values : Bytes)
    (hadm : ∀ m ∈ mutations, Mutation.Admissible m) :
    ∃ prepared values', prepareMutations index values mutations = .ok (prepared, values') ∧
      StandsFor index values values' mutations prepared := by
  induction mutations generalizing index values with
  | nil =>
    exact ⟨[], values, rfl, prefix_refl values, id, .nil, .nil, forall_mem_nil _, forall_mem_nil _⟩
  | cons m mutations ih =>
    obtain ⟨hm, hrest⟩ := forall_mem_cons.mp hadm
    obtain ⟨key, mutation⟩ := m
    cases mutation with
    | put =>
      obtain ⟨hkey, hvalue⟩ := hm
      obtain ⟨stored, values₁, hstore, hgrow, hwhole, hres, hentry⟩ :=
        storeValue_spec values hvalue
      obtain ⟨prepared, values', hprep, hstands⟩ := ih (index + 1) values₁ hrest
      refine ⟨⟨key, some stored, index⟩ :: prepared, values', ?_,
        hstands.cons hgrow hwhole ⟨rfl, .some (hres.mono hstands.grows)⟩ ?_⟩
      · rw [prepareMutations, hstore, ok_bind]
        dsimp only
        rw [hprep]
        rfl
      · rintro _ ⟨rfl⟩
        exact hentry key hkey
    | delete =>
      obtain ⟨prepared, values', hprep, hstands⟩ := ih (index + 1) values hrest
      refine ⟨⟨key, none, index⟩ :: prepared, values', ?_,
        hstands.cons (prefix_refl values) id ⟨rfl, .none⟩ nofun⟩
      rw [prepareMutations, hprep]
      rfl

/-! ## The pieces of a batch -/

/-- Sorting prepared mutations by key, stably, leaves their updates' effect. -/
theorem sorted_prepared (hpair : prepared.Pairwise (fun a b => a.index ≠ b.index))
    (hstored : ∀ p ∈ prepared, ∀ stored, p.value = some stored → StoredEntry (p.key, stored)) :
    Prepared (prepared.insertionSort (fun a b => a.key ≤ b.key)) ∧
      ∀ {entries : List Entry}, Sorted entries →
        updateAll entries (updates (prepared.insertionSort (fun a b => a.key ≤ b.key)))
          = updateAll entries (updates prepared) := by
  have hperm := perm_insertionSort (fun a b : PreparedMutation => a.key ≤ b.key) prepared
  refine ⟨⟨?_, ?_, ?_⟩, ?_⟩
  · have : Std.Total (fun a b : PreparedMutation => a.key ≤ b.key) :=
      ⟨fun a b => le_total a.key b.key⟩
    have : IsTrans PreparedMutation (fun a b => a.key ≤ b.key) :=
      ⟨fun _ _ _ h1 h2 => le_trans h1 h2⟩
    exact pairwise_insertionSort _ _
  · exact (hperm.pairwise_iff (fun h => h.symm)).mpr hpair
  · intro p hp
    exact hstored p (hperm.mem_iff.mp hp)
  · intro entries hs
    have hmap : updates (prepared.insertionSort (fun a b => a.key ≤ b.key))
        = (updates prepared).insertionSort keyLe :=
      map_insertionSort _ keyLe PreparedMutation.update prepared (fun _ _ _ _ => Iff.rfl)
    rw [hmap, updateAll_insertionSort hs]

/-- **GROWTH**: levels are added until at most one node is left. -/
theorem growRoot_spec (fuel : Nat) {h : Nat} {kids : Kids} (hp : pages ≠ [])
    (hl : Linked (Node ordered h pages) kids) (hlen : kids.length ≤ fuel + 1) :
    ∃ h' out pages', growRoot fuel pages (kids.map Prod.fst) = .ok (out.map Prod.fst, pages') ∧
      pages <+: pages' ∧ Linked (Node ordered h' pages') out ∧ contents out = contents kids ∧
      out.length ≤ 1 := by
  induction fuel generalizing h pages kids with
  | zero => exact ⟨h, kids, pages, rfl, prefix_refl pages, hl, rfl, hlen⟩
  | succ fuel ih =>
    rw [growRoot]
    split_ifs with hmany
    · have hmany' : 1 < kids.length := by rwa [length_map] at hmany
      have hne : kids ≠ [] := by
        rintro rfl
        exact absurd hmany' (by simp)
      obtain ⟨parents, pages1, hwrite, hgrow, hlinked, hcontents, _⟩ :=
        writeInternalLevel_spec ordered hp hne hl
      have hhalf : 2 * (rowChunks kids).length ≤ kids.length + 1 := by
        refine Packing.two_mul_length_pack (fun x y => ?_) hne
        have := internalCellSize_le y.1.minKey
        rw [headerSize, slotSize, pageSize]
        omega
      obtain ⟨h', out, pages2, hrest, hgrow2, hout, hcont, hone⟩ :=
        ih (hgrow.ne_nil hp) hlinked (by omega)
      refine ⟨h', out, pages2, ?_, hgrow.trans hgrow2, hout, hcont.trans hcontents, hone⟩
      rw [hwrite, ok_bind]
      exact hrest
    · rw [length_map] at hmany
      exact ⟨h, kids, pages, rfl, prefix_refl pages, hl, rfl, not_lt.mp hmany⟩

theorem lenChange_eq (value : Option Stored) (present : Bool) :
    lenChange value present
      = (if value.isSome then 1 else 0) - (if present then 1 else 0) := by
  cases value <;> cases present <;> rfl

/-- **COUNT**: the recorded changes add up to the growth of the map. -/
theorem lenDelta_spec {existed : Nat → Bool} {rest : List PreparedMutation} {m : PreparedMutation}
    (first : Nat) (hs : Sorted entries) (hp : Prepared (m :: rest))
    (hfirst : existed first = (lookup m.key entries).isSome)
    (hrest : ∀ p ∈ rest, existed p.index = (lookup p.key entries).isSome) :
    ((updateAll entries (updates (m :: rest))).length : Int)
      = entries.length + lenDelta existed first (m :: rest) := by
  induction rest generalizing m entries first with
  | nil =>
    rw [lenDelta, lenChange_eq, hfirst, updates_cons, updateAll_cons]
    have := length_update hs m.update
    rw [show updates [] = [] from rfl, updateAll_nil, this]
    rw [show m.update.1 = m.key from rfl, show m.update.2 = m.value from rfl]
    omega
  | cons next rest ih =>
    have hnextPrep : Prepared (next :: rest) := (Prepared.append (a := [m]) hp).2
    rw [lenDelta]
    split_ifs with hkey
    · -- a later mutation of the same key follows: the run goes on
      have hover := updateAll_overwrite hs m.key m.value next.value (updates rest)
      have hsame : updateAll entries (updates (m :: next :: rest))
          = updateAll entries (updates (next :: rest)) := by
        rw [updates_cons, updates_cons, show m.update = (m.key, m.value) from rfl,
          show next.update = (m.key, next.value) from by rw [← hkey]; rfl]
        exact hover
      rw [hsame]
      exact ih first hs hnextPrep (by rw [hkey]; exact hfirst)
        (fun p hp' => hrest p (mem_cons_of_mem _ hp'))
    · have hlt := hp.lt_of_head_ne (by simpa using hkey)
      have hlook : ∀ p ∈ next :: rest,
          lookup p.key (update entries m.update) = lookup p.key entries := by
        intro p hp'
        rw [lookup_update]
        exact if_neg (hlt p hp').ne'
      have hlen := length_update hs m.update
      rw [show m.update.1 = m.key from rfl, show m.update.2 = m.value from rfl, ← hfirst] at hlen
      have hnext := ih next.index (hs.update m.update) hnextPrep
        (by rw [hlook next mem_cons_self]; exact hrest next mem_cons_self)
        (fun p hp' => by
          rw [hlook p (mem_cons_of_mem _ hp')]
          exact hrest p (mem_cons_of_mem _ hp'))
      rw [updates_cons, updateAll_cons, hnext, hlen, lenChange_eq]
      omega

/-! ## The mutations refine the map's updates -/

/-- A tree still denotes its map when its files grew. -/
theorem Denotes.mono (h : Denotes ordered tree levels rows) (hpages : tree.pages <+: tree'.pages)
    (hvalues : tree.values <+: tree'.values) (hroot : tree'.root = tree.root)
    (hlen : tree'.len = tree.len) : Denotes ordered tree' levels rows := by
  obtain ⟨entries, hsuper, hrooted, hcount, hrel⟩ := h
  refine ⟨entries, hsuper.grow hpages, ?_, hlen.trans hcount,
    hrel.imp (fun _ _ hr => ⟨hr.1, hr.2.mono hvalues⟩)⟩
  rw [hroot]
  cases levels with
  | zero => exact hrooted
  | succ h => exact Node.grow hpages hrooted

theorem Rooted.sorted {root : Nat} (h : Rooted ordered pages root levels entries) :
    Sorted entries := by
  cases levels with
  | zero => rw [h.2]; exact sorted_nil
  | succ h' => exact Node.sorted h

/-- The node that is left roots what the row holds. -/
theorem growRoot_rooted {h : Nat} {kids : Kids} (hs : SuperFirst pages)
    (hl : Linked (Node ordered h pages) kids) :
    ∃ out pages' levels,
      growRoot (kids.map Prod.fst).length pages (kids.map Prod.fst) = .ok (out, pages') ∧
      pages <+: pages' ∧ SuperFirst pages' ∧
      Rooted ordered pages' (rootOf out) levels (contents kids) ∧
      (rootOf out = 0 → contents kids = []) := by
  obtain ⟨h', out, pages', hgrow, hpre, hout, hsame, hone⟩ :=
    growRoot_spec (kids.map Prod.fst).length hs.ne_nil hl (by rw [length_map]; omega)
  have hs' := hs.grow hpre
  rw [← hsame]
  cases out with
  | nil => exact ⟨_, pages', 0, hgrow, hpre, hs', ⟨rfl, rfl⟩, fun _ => rfl⟩
  | cons x out =>
    obtain rfl : out = [] := length_eq_zero_iff.mp (by
      rw [length_cons] at hone
      omega)
    have hx := hout.holds x mem_cons_self
    rw [show contents [x] = x.2 from append_nil x.2]
    exact ⟨_, pages', h' + 1, hgrow, hpre, hs', hx, fun h0 => absurd h0 (hs'.id_ne_zero hx)⟩

/-- The first pass of a batch, from an empty tree or from a root. -/
theorem applyRoot_spec (hs : SuperFirst tree.pages)
    (hr : Rooted ordered tree.pages tree.root levels entries) (hd : levels ≤ maxTreeDepth)
    (hprep : Prepared prepared) :
    ∃ h kids existed pages, applyRoot tree prepared = .ok (kids.map Prod.fst, existed, pages) ∧
      tree.pages <+: pages ∧ Linked (Node ordered h pages) kids ∧
      contents kids = updateAll entries (updates prepared) ∧
      ∀ p ∈ prepared, existed p.index = (lookup p.key entries).isSome := by
  cases levels with
  | zero =>
    obtain ⟨hroot, rfl⟩ := hr
    rw [applyRoot, if_pos hroot]
    dsimp only
    split_ifs with hnil
    · obtain ⟨hmerge, hrec⟩ := mergeEntries_spec (fun _ => false) sorted_nil hprep
      exact ⟨0, [], _, tree.pages, rfl, prefix_refl _, linked_nil,
        hnil.symm.trans hmerge, hrec.marked⟩
    · obtain ⟨kids, pages, hwrite, hrew⟩ := applyLeaf_spec ordered
        (fun _ => false) hs.ne_nil sorted_nil (by simp) hprep hnil
      rw [hwrite]
      exact ⟨0, kids, _, pages, rfl, hrew.grows, hrew.linked, hrew.holds, hrew.records.marked⟩
  | succ h =>
    obtain ⟨h', kids, existed, pages, hcall, _, hrew⟩ := applyNode_spec true
      (fun _ => false) hd le_rfl hs.ne_nil hr hprep
    rw [applyRoot, if_neg (hs.id_ne_zero hr)]
    exact ⟨h', kids, existed, pages, hcall, hrew.grows, hrew.linked, hrew.holds,
      hrew.records.marked⟩

section

variable (ht : Denotes ordered tree levels rows)
include ht

section

variable (hd : levels ≤ maxTreeDepth)
include hd

/-- **BATCH**: within the depth bound a batch succeeds, keeps the old root's map, and its
    outcome denotes the map with the mutations applied left to right. -/
theorem prepareBatch_denotes (hadm : ∀ m ∈ mutations, Mutation.Admissible m) :
    ∃ outcome tree', tree.prepareBatch mutations = .ok (outcome, tree') ∧ Grows tree tree' ∧
      ∃ levels', Denotes ordered (tree'.publish outcome.root outcome.len) levels'
        (updateAll rows (mutations.map Mutation.update)) := by
  rw [PageTree.prepareBatch]
  by_cases hnil : mutations = []
  · subst hnil
    rw [if_pos rfl]
    exact ⟨⟨tree.root, tree.len⟩, tree, rfl, Grows.refl tree, levels, ht⟩
  · obtain ⟨entries, hsuper, hrooted, hcount, hrel⟩ := ht
    obtain ⟨prepared, values, hprepare, hvalues, hwhole, hrels, hpair, _, hstored⟩ :=
      prepareMutations_spec 0 tree.values hadm
    obtain ⟨hprep, hsort⟩ := sorted_prepared hpair hstored
    have hne : prepared.insertionSort (fun a b => a.key ≤ b.key) ≠ [] := by
      intro hempty
      have hlen := (perm_insertionSort (fun a b : PreparedMutation => a.key ≤ b.key)
        prepared).length_eq
      have hlen' := hrels.length_eq
      rw [updates, length_map, length_map] at hlen'
      rw [hempty] at hlen
      exact hnil (length_eq_zero_iff.mp (hlen'.symm.trans hlen.symm))
    set sorted := prepared.insertionSort (fun a b => a.key ≤ b.key) with hsorted
    obtain ⟨h, kids, existed, pages1, hroot, hgrow1, hlinked, hholds, hmarked⟩ :=
      applyRoot_spec hsuper hrooted hd hprep
    obtain ⟨out, pages2, levels', hgrow, hgrow2, hsuper2, hrooted', hzero⟩ :=
      growRoot_rooted (hsuper.grow hgrow1) hlinked
    have hcontents : contents kids = updateAll entries (updates prepared) :=
      hholds.trans (hsort hrooted.sorted)
    -- the length is counted by keys that appear and vanish, not by walking
    have hdelta : ((contents kids).length : Int) = tree.len
        + lenDelta existed ((sorted.head?.map PreparedMutation.index).getD 0) sorted := by
      obtain ⟨m, rest, hcons⟩ := exists_cons_of_ne_nil hne
      rw [hcons] at hprep hholds hmarked
      rw [hholds, hcount, hcons]
      exact lenDelta_spec m.index hrooted.sorted hprep (hmarked m mem_cons_self)
        (fun p hp => hmarked p (mem_cons_of_mem _ hp))
    have hlen : (if rootOf out = 0 then 0 else (tree.len + lenDelta existed
        ((sorted.head?.map PreparedMutation.index).getD 0) sorted).toNat)
        = (contents kids).length := by
      split_ifs with hz
      · rw [hzero hz]
        rfl
      · rw [← hdelta]
        rfl
    refine ⟨⟨rootOf out, (contents kids).length⟩,
      { tree with pages := pages2, values := values }, ?_,
      ⟨hgrow1.trans hgrow2, hvalues, hwhole⟩, levels', contents kids, hsuper2, hrooted', rfl, ?_⟩
    · rw [if_neg hnil, hprepare, ok_bind]
      dsimp only
      rw [← hsorted, hroot, ok_bind]
      rw [hgrow, ok_bind]
      rw [hlen]
      rfl
    · rw [hcontents]
      exact Related.updateAll hrels (hrel.imp (fun _ _ hr => ⟨hr.1, hr.2.mono hvalues⟩))

/-- The put of a key splits every page on its path, the root included. -/
def PutSplits (tree : PageTree) (key value : Bytes) (revision : Nat) : Prop :=
  ∃ stored values leaf path entries nodes pages nodes' pages',
    storeValue tree.values value revision = .ok (stored, values) ∧
    findLeaf tree.pages tree.root key = .ok (leaf, path) ∧
    readLeaf tree.pages leaf = .ok entries ∧
    writeLeafLevel tree.pages (spliceEntry entries (key, stored)) = .ok (nodes, pages) ∧
    rebuildPath pages nodes path = .ok (nodes', pages') ∧ 2 ≤ nodes'.length

/-- **PUT**: within the depth bound one put succeeds, keeps the old root's map, and its
    outcome denotes the map with the key put. It adds at most one level, and adds one when it
    splits the root. -/
theorem preparePut_denotes {key : Bytes} (hkey : StoredKey key)
    (hvalue : ValueLog.Admissible revision value) :
    ∃ outcome tree', tree.preparePut key value revision = .ok (outcome, tree') ∧
      Grows tree tree' ∧ ∃ levels', levels' ≤ levels + 1 ∧
        Denotes ordered (tree'.publish outcome.root outcome.len) levels'
          (put key ⟨value, revision⟩ rows) ∧
        (PutSplits tree key value revision → levels' = levels + 1) := by
  obtain ⟨entries, hsuper, hrooted, hcount, hrel⟩ := ht
  obtain ⟨stored, values, hstore, hvalues, hwhole, hres, hentry⟩ :=
    storeValue_spec tree.values hvalue
  have hrel' : Related (Resolves values) (put key stored entries)
      (put key ⟨value, revision⟩ rows) :=
    Related.put (hrel.imp (fun _ _ hr => ⟨hr.1, hr.2.mono hvalues⟩)) key hres
  rw [PageTree.preparePut, hstore, ok_bind]
  cases levels with
  | zero =>
    obtain ⟨hroot, rfl⟩ := hrooted
    have hone : ([(key, stored)] : List Entry) ≠ [] := by simp
    obtain ⟨node, pages, hwrite, hgrow, hnode, _⟩ := writeLeaf_spec ordered hsuper.ne_nil hone
      (pairwise_singleton _ _)
      (fun e he => mem_singleton.mp he ▸ hentry key hkey) (leafCell_fits (hentry key hkey))
    dsimp only
    rw [if_pos hroot, hwrite]
    exact ⟨⟨node.pageId, 1⟩, { tree with pages := pages, values := values }, rfl,
      ⟨hgrow, hvalues, hwhole⟩, 1, le_rfl,
      ⟨[(key, stored)], hsuper.grow hgrow, hnode, rfl, hrel'⟩, fun _ => rfl⟩
  | succ h =>
    have hne : tree.root ≠ 0 := hsuper.id_ne_zero hrooted
    obtain ⟨leaf, leafEntries, path, hfind, hpath⟩ :=
      findLeafFrom_node key hrooted hd le_rfl
    obtain ⟨hleaf, hlook⟩ := hpath.leaf
    obtain ⟨hsplice, hexisted⟩ := spliceEntry_eq hleaf.sorted key stored
    obtain ⟨new, pages1, hwrite, hgrow1, hnew, hcontents, hcountNew, hmin⟩ :=
      writeLeafLevel_spec ordered hsuper.ne_nil (put_ne_nil key stored leafEntries)
        (hleaf.sorted.put key stored) (forall_mem_put (hentry key hkey) hleaf.storedEntry)
    obtain ⟨kids, pages2, hrebuild, hgrow2, hkids, hput, hfour, _⟩ :=
      rebuildPath_spec hpath hsuper.ne_nil hgrow1 hnew hcontents hmin
        (hcountNew ▸ leafChunks_put_le hleaf (hentry key hkey))
    have hsuper2 := hsuper.grow (hgrow1.trans hgrow2)
    have hlen : tree.len + (if (lookup key leafEntries).isSome then 0 else 1)
        = (put key stored entries).length := by
      have := length_update (Node.sorted hrooted) (key, some stored)
      rw [← hlook, hcount]
      rw [show update entries (key, some stored) = put key stored entries from rfl] at this
      cases hl : (lookup key entries).isSome <;> simp [hl] at this ⊢ <;> omega
    dsimp only
    rw [if_neg hne]
    simp only [pure_eq_ok]
    rw [findLeaf, hfind, ok_bind]
    rw [readLeaf_node hleaf, ok_bind, hsplice, hwrite, ok_bind]
    rw [hrebuild, ok_bind]
    rw [hexisted, hlen]
    have hkne : kids ≠ [] := by
      rintro rfl
      exact put_ne_nil key stored entries hput.symm
    obtain ⟨first, rest, rfl⟩ := exists_cons_of_ne_nil hkne
    cases rest with
    | nil =>
      refine ⟨⟨first.1.pageId, (put key stored entries).length⟩,
        { tree with pages := pages2, values := values }, rfl,
        ⟨hgrow1.trans hgrow2, hvalues, hwhole⟩, h + 1, Nat.le_succ _,
        ⟨put key stored entries, hsuper2, ?_, rfl, hrel'⟩, ?_⟩
      · rw [← hput, contents_cons, contents_nil, append_nil]
        exact hkids.holds first mem_cons_self
      · -- one node is left, so the root was not split
        rintro ⟨_, _, _, _, _, _, _, _, _, hstore', hfind', hread', hwrite', hrebuild', htwo⟩
        cases hstore.symm.trans hstore'
        cases hfind.symm.trans hfind'
        cases (readLeaf_node hleaf).symm.trans hread'
        rw [hsplice] at hwrite'
        cases hwrite.symm.trans hwrite'
        cases hrebuild.symm.trans hrebuild'
        exact absurd htwo (by simp)
    | cons second rest =>
      -- the row has four nodes at most, so one page above it holds them
      have hfit : headerSize + rowBytes (second :: rest) ≤ pageSize := by
        have hsize : rowBytes (second :: rest) ≤ (second :: rest).length * 1047 :=
          rowBytes_le_length (second :: rest)
        rw [length_cons] at hfour
        rw [headerSize, pageSize]
        omega
      obtain ⟨node, pages3, hwriteRoot, hgrow3, hnode, _⟩ := writeInternal_spec ordered
        ((hgrow1.trans hgrow2).ne_nil hsuper.ne_nil) hkids hfit
      refine ⟨⟨node.pageId, (put key stored entries).length⟩,
        { tree with pages := pages3, values := values }, ?_,
        ⟨(hgrow1.trans hgrow2).trans hgrow3, hvalues, hwhole⟩, h + 2, le_rfl,
        ⟨put key stored entries, hsuper2.grow hgrow3, ?_, rfl, hrel'⟩, fun _ => rfl⟩
      · show (do
          let (node, pages) ← writeInternal pages2 ((first :: second :: rest).map Prod.fst)
          Except.ok (BatchOutcome.mk node.pageId (put key stored entries).length,
            ({ tree with pages := pages, values := values } : PageTree))) = _
        rw [hwriteRoot]
        rfl
      · rw [← hput]
        exact hnode

/-- **DELETE**: an absent key leaves the tree as it is; a present one is erased, and the old
    root keeps its map. -/
theorem prepareDelete_denotes (key : Bytes) :
    (lookup key rows = none → tree.prepareDelete key = .ok (none, tree)) ∧
      ((lookup key rows).isSome → ∃ outcome tree',
        tree.prepareDelete key = .ok (some outcome, tree') ∧ Grows tree tree' ∧
        ∃ levels', Denotes ordered (tree'.publish outcome.root outcome.len) levels'
          (erase key rows)) := by
  obtain ⟨entries, hsuper, hrooted, hcount, hrel⟩ := ht
  have hpresent := hrel.lookup_isSome key
  rw [PageTree.prepareDelete]
  cases levels with
  | zero =>
    obtain ⟨hroot, rfl⟩ := hrooted
    refine ⟨fun _ => if_pos hroot, fun hsome => ?_⟩
    rw [← hpresent] at hsome
    exact absurd hsome (by simp)
  | succ h =>
    obtain ⟨leaf, path, hfind, hlookup⟩ := lookup_node hrooted hd key
    rw [if_neg (hsuper.id_ne_zero hrooted), hfind, ok_bind]
    dsimp only
    rw [hlookup, ok_bind]
    constructor
    · intro hnone
      rw [hnone] at hpresent
      rw [Option.isNone_iff_eq_none.mp (Option.isSome_eq_false_iff.mp hpresent)]
      rfl
    · intro hsome
      rw [← hpresent] at hsome
      obtain ⟨stored, hstored⟩ := Option.isSome_iff_exists.mp hsome
      have hprep : Prepared [⟨key, none, 0⟩] :=
        ⟨pairwise_singleton _ _, pairwise_singleton _ _, by simp⟩
      obtain ⟨_, kids, existed, pages1, hcall, _, hrew⟩ := applyNode_spec true
        (fun _ => true) hd le_rfl hsuper.ne_nil hrooted hprep
      obtain ⟨out, pages2, levels', hgrow, hgrow2, hsuper2, hrooted', _⟩ :=
        growRoot_rooted (hsuper.grow hrew.grows) hrew.linked
      have hcontents : contents kids = erase key entries := hrew.holds
      have hlen : tree.len - 1 = (contents kids).length := by
        have := length_update (Node.sorted hrooted) (key, none)
        rw [show update entries (key, none) = erase key entries from rfl, hstored] at this
        rw [hcontents, hcount]
        simp at this
        omega
      rw [hstored]
      refine ⟨⟨rootOf out, tree.len - 1⟩, { tree with pages := pages2 }, ?_,
        ⟨hrew.grows.trans hgrow2, prefix_rfl, id⟩, levels', contents kids, hsuper2, hrooted',
        hlen, hcontents ▸ hrel.erase key⟩
      rw [hcall, ok_bind]
      rw [hgrow]
      rfl

end

end

end Vyrn
