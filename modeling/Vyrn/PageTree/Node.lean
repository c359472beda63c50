import Vyrn.PageTree.Page

/-!
# What a page of the tree holds

`Node ordered h pages id entries` — page `id` roots a subtree of height `h` whose leaves hold
exactly `entries`. An internal page's children are subtrees of one height, and each separator lies
above everything to its left and at or below everything to its right (`Linked`); deletes leave
separators behind, stale but valid. With `ordered` set, a page may only look at pages before it, and
the tree survives any cut of the file behind its root. `Node.mono` is the frame law: appending pages
never changes what a page holds.
-/

namespace Vyrn

open SortedMap List

variable {ordered : Bool} {entries : List Entry} {h id expected : Nat} {pages pages' : Pages}
  {bytes : Bytes} {kids : Kids} {page : Page} (more : Pages)

/-! ## Reads and the growth of the file -/

theorem readPage_ok : readPage pages id = .ok page ↔ pages[id]? = some page := by
  rw [readPage]
  cases pages[id]? with
  | none => exact ⟨fun h => absurd h (by simp), fun h => absurd h (by simp)⟩
  | some => simp

theorem getElem?_append_some (h : pages[id]? = some page) : (pages ++ more)[id]? = some page := by
  obtain ⟨hlt, _⟩ := List.getElem?_eq_some_iff.mp h
  rw [getElem?_append_left hlt, h]

theorem readBlobFrom_mono (fuel id : Nat) (result : Bytes) {out : Bytes × Nat}
    (h : readBlobFrom pages expected fuel id result = .ok out) :
    readBlobFrom (pages ++ more) expected fuel id result = .ok out := by
  induction fuel generalizing id result out with
  | zero => exact h
  | succ fuel ih =>
    rw [readBlobFrom] at h ⊢
    by_cases hid : id = 0
    · rw [if_pos hid] at h ⊢; exact h
    · rw [if_neg hid] at h ⊢
      cases hp : readPage pages id with
      | error => rw [hp] at h; exact absurd h (by simp)
      | ok page =>
        rw [hp] at h
        rw [readPage_ok.mpr (getElem?_append_some more (readPage_ok.mp hp))]
        cases page with
        | blob _ next =>
          dsimp only at h ⊢
          split_ifs at h ⊢ with hc
          exact ih next _ h
        | super | leaf _ _ | internal _ _ _ => exact absurd h (by simp)

/-- A blob that reads keeps reading the same while the file grows. -/
theorem readBlob_mono {first len : Nat} (h : readBlob pages first len = .ok bytes) :
    readBlob (pages ++ more) first len = .ok bytes := by
  rw [readBlob] at h ⊢
  by_cases hl : len = 0
  · rw [if_pos hl] at h ⊢; exact h
  · rw [if_neg hl] at h ⊢
    cases hb : readBlobFrom pages len
        ((len + (pageSize - headerSize) - 1) / (pageSize - headerSize)) first [] with
    | error => rw [hb] at h; exact absurd h (by simp)
    | ok =>
      rw [hb] at h
      rw [readBlobFrom_mono more _ _ _ hb]
      exact h

/-- Reading back a blob that starts right behind `front`. -/
theorem readBlobFrom_blobPages (n : Nat) (bytes : Bytes) (front : Pages) (result : Bytes)
    (fuel : Nat) (hfront : front ≠ []) (hb : bytes ≠ []) (hn : bytes.length ≤ n)
    (hexp : result.length + bytes.length = expected)
    (hfuel : (bytes.length + (pageSize - headerSize) - 1) / (pageSize - headerSize) ≤ fuel) :
    readBlobFrom (front ++ (blobPages n front.length bytes ++ more)) expected fuel
      front.length result = .ok (result ++ bytes, 0) := by
  induction n generalizing bytes front result fuel with
  | zero => exact absurd (eq_nil_of_length_eq_zero (Nat.le_zero.mp hn)) hb
  | succ n ih =>
    have hpos : 0 < bytes.length := length_pos_iff.mpr hb
    have hC : pageSize - headerSize = 4056 := rfl
    have hid : front.length ≠ 0 := fun h => hfront (eq_nil_of_length_eq_zero h)
    obtain ⟨fuel, rfl⟩ : ∃ f, fuel = f + 1 := by
      rw [hC] at hfuel
      exact ⟨fuel - 1, by omega⟩
    rw [readBlobFrom, if_neg hid, blobPages]
    split_ifs with hle
    · -- the last chunk: the chain ends here whatever fuel is left
      have hpage : readPage (front ++ ([Page.blob bytes 0] ++ more)) front.length
          = .ok (.blob bytes 0) := readPage_ok.mpr (by simp)
      rw [hpage]
      dsimp only
      rw [if_neg (by omega)]
      cases fuel with
      | zero => rfl
      | succ f => rw [readBlobFrom, if_pos rfl]
    · have hpage : readPage (front ++ (Page.blob (bytes.take (pageSize - headerSize))
          (front.length + 1) :: blobPages n (front.length + 1)
            (bytes.drop (pageSize - headerSize)) ++ more)) front.length
          = .ok (.blob (bytes.take (pageSize - headerSize)) (front.length + 1)) :=
        readPage_ok.mpr (by simp)
      have htake : (bytes.take (pageSize - headerSize)).length = pageSize - headerSize := by
        rw [length_take]; omega
      rw [hpage]
      dsimp only
      rw [if_neg (by rw [htake]; omega)]
      have hdrop : (bytes.drop (pageSize - headerSize)).length
          = bytes.length - (pageSize - headerSize) := length_drop
      have hrest := ih (bytes.drop (pageSize - headerSize))
        (front ++ [Page.blob (bytes.take (pageSize - headerSize)) (front.length + 1)])
        (result ++ bytes.take (pageSize - headerSize)) fuel (by simp)
        (fun h => by rw [h] at hdrop; simp at hdrop; omega) (by omega)
        (by rw [length_append, htake, hdrop]; omega)
        (by rw [hdrop]; rw [hC] at hfuel ⊢; omega)
      rw [length_append, length_singleton, append_assoc, append_assoc, take_append_drop] at hrest
      exact hrest

/-- **BLOB ROUND TRIP**. -/
theorem readBlob_writeBlob (hp : pages ≠ []) (hb : bytes ≠ []) :
    readBlob (writeBlob pages bytes).2 (writeBlob pages bytes).1 bytes.length = .ok bytes := by
  have hpos : bytes.length ≠ 0 := fun h => hb (eq_nil_of_length_eq_zero h)
  have hread := readBlobFrom_blobPages [] bytes.length bytes pages [] _ hp hb le_rfl
    (zero_add _) le_rfl
  rw [append_nil, nil_append] at hread
  rw [writeBlob, if_neg hb, readBlob, if_neg hpos]
  rw [hread]
  dsimp only
  rw [if_neg (by simp)]

theorem writeBlob_grows (pages : Pages) (bytes : Bytes) : pages <+: (writeBlob pages bytes).2 := by
  rw [writeBlob]
  split_ifs with h
  · exact prefix_refl pages
  · exact prefix_append _ _

/-! ## The invariant -/

/-- The pages page `id` may look at. -/
def view (ordered : Bool) (pages : Pages) (id : Nat) : Pages :=
  if ordered then pages.take id else pages

/-- A key a page may hold. -/
def StoredKey (key : Bytes) : Prop :=
  0 < key.length ∧ key.length ≤ maxStoredKeySize

/-- An entry a page may hold: an admissible key, and a value that is inline exactly when it
    is within the inline limit. -/
def StoredEntry (entry : Entry) : Prop :=
  StoredKey entry.1 ∧
    match entry.2.value with
    | .inline value => value.length ≤ inlineLimit
    | .external reference => inlineLimit < reference.len ∧ reference.len ≤ maxValueSize ∧
        reference.revision = entry.2.revision

/-- The cell's key is `key`: stored in place up to the inline limit, in a blob above it. -/
def KeyCell.Holds (pages : Pages) (cell : KeyCell) (key : Bytes) : Prop :=
  match cell with
  | .inline k => k = key ∧ key.length ≤ inlineLimit
  | .blob page len => len = key.length ∧ inlineLimit < key.length ∧
      readBlob pages page len = .ok key

/-- The cell holds `entry`. -/
def LeafCell.Holds (pages : Pages) (cell : LeafCell) (entry : Entry) : Prop :=
  StoredEntry entry ∧ cell.key.Holds pages entry.1 ∧
    cell.value = encodeValue entry.2.value ∧ cell.revision = entry.2.revision

/-- The cell holds the separator and the page of `child`. -/
def InternalCell.Holds (pages : Pages) (cell : InternalCell) (child : NodeRef) : Prop :=
  StoredKey child.minKey ∧ cell.key.Holds pages child.minKey ∧ cell.child = child.pageId

/-- A row of siblings with what each holds: a separator is at or below everything in its own
    subtree and above everything in the subtrees before it. -/
structure Linked (P : Nat → List Entry → Prop) (kids : List (NodeRef × List Entry)) :
    Prop where
  holds : ∀ kid ∈ kids, P kid.1.pageId kid.2
  stored : ∀ kid ∈ kids, StoredKey kid.1.minKey
  above : ∀ kid ∈ kids, ∀ e ∈ kid.2, kid.1.minKey ≤ e.1
  apart : kids.Pairwise (fun a b => ∀ e ∈ a.2, e.1 < b.1.minKey)

/-- What a row of siblings holds together. -/
def contents (kids : List (NodeRef × List Entry)) : List Entry :=
  (kids.map Prod.snd).flatten

@[simp] theorem contents_nil : contents [] = [] := rfl

@[simp] theorem contents_cons (kid : NodeRef × List Entry) (kids : Kids) :
    contents (kid :: kids) = kid.2 ++ contents kids := rfl

@[simp] theorem contents_append (a b : Kids) :
    contents (a ++ b) = contents a ++ contents b := by
  rw [contents, contents, contents, map_append, flatten_append]

theorem mem_contents {e : Entry} : e ∈ contents kids ↔ ∃ kid ∈ kids, e ∈ kid.2 := by
  rw [contents, mem_flatten]
  constructor
  · rintro ⟨l, hl, he⟩
    obtain ⟨kid, hk, rfl⟩ := mem_map.mp hl
    exact ⟨kid, hk, he⟩
  · rintro ⟨kid, hk, he⟩
    exact ⟨kid.2, mem_map.mpr ⟨kid, hk, rfl⟩, he⟩

/-- Page `id` roots a subtree of height `h` that holds `entries`. -/
def Node (ordered : Bool) : Nat → Pages → Nat → List Entry → Prop
  | 0, pages, id, entries =>
    ∃ slots cells, pages[id]? = some (.leaf slots cells) ∧
      Forall₂ (LeafCell.Holds (view ordered pages id)) cells entries ∧
      entries ≠ [] ∧ Sorted entries ∧
      cellsBytes slots (cells.map LeafCell.bytes) ≤ pageSize
  | h + 1, pages, id, entries =>
    ∃ slots first cells, pages[id]? = some (.internal slots first cells) ∧
      cellsBytes slots (cells.map InternalCell.bytes) ≤ pageSize ∧
      ∃ minKey head tail,
        Forall₂ (InternalCell.Holds (view ordered pages id)) cells (tail.map Prod.fst) ∧
        Linked (Node ordered h (view ordered pages id)) ((⟨first, minKey⟩, head) :: tail) ∧
        entries = head ++ contents tail

/-! ## Rows of siblings -/

section Linked

variable {P Q : Nat → List Entry → Prop} {kids : Kids} {x : NodeRef × List Entry}

theorem linked_nil : Linked P [] :=
  ⟨by simp, by simp, by simp, Pairwise.nil⟩

theorem Linked.imp (h : Linked P kids) (hPQ : ∀ id entries, P id entries → Q id entries) :
    Linked Q kids :=
  ⟨fun kid hk => hPQ _ _ (h.holds kid hk), h.stored, h.above, h.apart⟩

/-- A row cut in two: two rows, and every separator of the second above all of the first. -/
theorem linked_append {a b : Kids} :
    Linked P (a ++ b) ↔ Linked P a ∧ Linked P b ∧
      ∀ x ∈ a, ∀ y ∈ b, ∀ e ∈ x.2, e.1 < y.1.minKey := by
  constructor
  · intro h
    obtain ⟨ha, hb, hab⟩ := pairwise_append.mp h.apart
    obtain ⟨hholds, hholds'⟩ := forall_mem_append.mp h.holds
    obtain ⟨hstored, hstored'⟩ := forall_mem_append.mp h.stored
    obtain ⟨habove, habove'⟩ := forall_mem_append.mp h.above
    exact ⟨⟨hholds, hstored, habove, ha⟩, ⟨hholds', hstored', habove', hb⟩, hab⟩
  · rintro ⟨ha, hb, hab⟩
    exact ⟨forall_mem_append.mpr ⟨ha.holds, hb.holds⟩,
      forall_mem_append.mpr ⟨ha.stored, hb.stored⟩, forall_mem_append.mpr ⟨ha.above, hb.above⟩,
      pairwise_append.mpr ⟨ha.apart, hb.apart, hab⟩⟩

theorem linked_cons :
    Linked P (x :: kids) ↔ (P x.1.pageId x.2 ∧ StoredKey x.1.minKey ∧
      ∀ e ∈ x.2, x.1.minKey ≤ e.1) ∧ Linked P kids ∧
      ∀ y ∈ kids, ∀ e ∈ x.2, e.1 < y.1.minKey := by
  rw [show x :: kids = [x] ++ kids from rfl, linked_append]
  constructor
  · rintro ⟨hx, hk, hxk⟩
    exact ⟨⟨hx.holds x (by simp), hx.stored x (by simp), hx.above x (by simp)⟩, hk, hxk x (by simp)⟩
  · rintro ⟨⟨h1, h2, h3⟩, hk, hxk⟩
    exact ⟨⟨forall_mem_singleton.mpr h1, forall_mem_singleton.mpr h2,
      forall_mem_singleton.mpr h3, pairwise_singleton _ _⟩, hk,
      forall_mem_singleton.mpr hxk⟩

theorem linked_singleton :
    Linked P [x] ↔ P x.1.pageId x.2 ∧ StoredKey x.1.minKey ∧ ∀ e ∈ x.2, x.1.minKey ≤ e.1 := by
  rw [linked_cons]
  exact ⟨fun h => h.1, fun h => ⟨h, linked_nil, by simp⟩⟩

/-- The row's contents ascend when each sibling's do. -/
theorem Linked.sorted (h : Linked P kids) (hP : ∀ id entries, P id entries → Sorted entries) :
    Sorted (contents kids) := by
  induction kids with
  | nil => exact sorted_nil
  | cons x kids ih =>
    obtain ⟨⟨hx, _⟩, hk, hxk⟩ := linked_cons.mp h
    rw [contents_cons, sorted_append]
    refine ⟨hP _ _ hx, ih hk, ?_⟩
    intro e he e' he'
    obtain ⟨y, hy, hey⟩ := mem_contents.mp he'
    exact (hxk y hy e he).trans_le (hk.above y hy e' hey)

end Linked

/-! ## The frame law -/

theorem KeyCell.Holds.mono {cell : KeyCell} {key : Bytes} (h : cell.Holds pages key) :
    cell.Holds (pages ++ more) key := by
  cases cell with
  | inline => exact h
  | blob => exact ⟨h.1, h.2.1, readBlob_mono more h.2.2⟩

theorem LeafCell.Holds.mono {cell : LeafCell} {entry : Entry} (h : cell.Holds pages entry) :
    cell.Holds (pages ++ more) entry :=
  ⟨h.1, h.2.1.mono more, h.2.2⟩

theorem InternalCell.Holds.mono {cell : InternalCell} {child : NodeRef}
    (h : cell.Holds pages child) : cell.Holds (pages ++ more) child :=
  ⟨h.1, h.2.1.mono more, h.2.2⟩

theorem view_append (ordered : Bool) (more : Pages) (h : id ≤ pages.length) :
    ∃ more', view ordered (pages ++ more) id = view ordered pages id ++ more' := by
  cases ordered with
  | false => exact ⟨more, rfl⟩
  | true => exact ⟨[], by simp [view, take_append_of_le_length h]⟩

/-- A page holds the same in another file that has it and all that it looks at. -/
theorem Node.transfer {ordered' : Bool} (hpage : pages'[id]? = pages[id]?)
    (hview : view ordered' pages' id = view ordered pages id ++ more)
    (hkids : ∀ k < h, ∀ kid held, Node ordered k (view ordered pages id) kid held →
      Node ordered' k (view ordered' pages' id) kid held)
    (hn : Node ordered h pages id entries) : Node ordered' h pages' id entries := by
  cases h with
  | zero =>
    obtain ⟨slots, cells, hp, hcells, hrest⟩ := hn
    exact ⟨slots, cells, hpage.trans hp, hcells.imp (fun _ _ hc => hview ▸ hc.mono more), hrest⟩
  | succ h =>
    obtain ⟨slots, first, cells, hp, hfit, minKey, head, tail, hcells, hl, he⟩ := hn
    exact ⟨slots, first, cells, hpage.trans hp, hfit, minKey, head, tail,
      hcells.imp (fun _ _ hc => hview ▸ hc.mono more), hl.imp (hkids h h.lt_succ_self), he⟩

theorem Node.lt (hn : Node ordered h pages id entries) : id < pages.length := by
  cases h with
  | zero =>
    obtain ⟨_, _, hp, _⟩ := hn
    exact (List.getElem?_eq_some_iff.mp hp).1
  | succ h =>
    obtain ⟨_, _, _, hp, _⟩ := hn
    exact (List.getElem?_eq_some_iff.mp hp).1

/-- **FRAME**: a subtree holds the same entries however the file grows. -/
theorem Node.mono (hn : Node ordered h pages id entries) :
    Node ordered h (pages ++ more) id entries := by
  induction h using Nat.strong_induction_on generalizing pages more id entries with
  | _ h ih =>
    obtain ⟨more', hv⟩ := view_append ordered more hn.lt.le
    exact hn.transfer more' (getElem?_append_left hn.lt) hv
      (fun k hk _ _ hkid => hv ▸ ih k hk more' hkid)

theorem Node.grow (hp : pages <+: pages') (hn : Node ordered h pages id entries) :
    Node ordered h pages' id entries := by
  obtain ⟨more, rfl⟩ := hp
  exact hn.mono more

theorem Linked.grow (hp : pages <+: pages') (hl : Linked (Node ordered h pages) kids) :
    Linked (Node ordered h pages') kids :=
  hl.imp (fun _ _ hn => hn.grow hp)

/-- An ordered tree is a tree. -/
theorem Node.unordered (hn : Node true h pages id entries) : Node false h pages id entries := by
  induction h using Nat.strong_induction_on generalizing pages id entries with
  | _ h ih =>
    have hv : view false pages id = view true pages id ++ pages.drop id :=
      (take_append_drop id pages).symm
    exact hn.transfer _ rfl hv (fun k hk _ _ hkid => hv ▸ (ih k hk hkid).mono _)

/-- **CUT**: an ordered tree survives a cut of the file behind its root. -/
theorem Node.cut {n : Nat} (hn : Node true h pages id entries) (hid : id < n) :
    Node true h (pages.take n) id entries := by
  have hview : view true (pages.take n) id = view true pages id := by
    simp [view, take_take, min_eq_left hid.le]
  exact hn.transfer [] (getElem?_take_of_lt hid) (hview.trans (append_nil _).symm)
    (fun _ _ _ _ hkid => hview ▸ hkid)

/-! ## Consequences of the invariant -/

theorem Node.sorted_ne_nil (hn : Node ordered h pages id entries) :
    Sorted entries ∧ entries ≠ [] := by
  induction h generalizing pages id entries with
  | zero =>
    obtain ⟨_, _, _, _, hne, hs, _⟩ := hn
    exact ⟨hs, hne⟩
  | succ h ih =>
    obtain ⟨_, first, _, _, _, minKey, head, tail, _, hl, rfl⟩ := hn
    obtain ⟨⟨hhead, _⟩, _⟩ := linked_cons.mp hl
    refine ⟨?_, ?_⟩
    · exact hl.sorted (fun _ _ hk => (ih hk).1)
    · intro he
      exact (ih hhead).2 (append_eq_nil_iff.mp he).1

theorem Node.sorted (hn : Node ordered h pages id entries) : Sorted entries :=
  hn.sorted_ne_nil.1

theorem Node.ne_nil (hn : Node ordered h pages id entries) : entries ≠ [] :=
  hn.sorted_ne_nil.2

/-- Every entry of a tree is one a page may hold. -/
theorem Node.storedEntry (hn : Node ordered h pages id entries) : ∀ e ∈ entries, StoredEntry e := by
  induction h generalizing pages id entries with
  | zero =>
    intro e he
    obtain ⟨_, cells, _, hcells, _⟩ := hn
    obtain ⟨cell, _, hholds⟩ :=
      exists_of_mem_forall₂ (R := fun e cell => LeafCell.Holds _ cell e) hcells.flip e he
    exact hholds.1
  | succ h ih =>
    intro e he
    obtain ⟨_, first, _, _, _, minKey, head, tail, _, hl, rfl⟩ := hn
    rw [← contents_cons (⟨first, minKey⟩, head) tail] at he
    obtain ⟨kid, hk, hek⟩ := mem_contents.mp he
    exact ih (hl.holds kid hk) e hek

end Vyrn
