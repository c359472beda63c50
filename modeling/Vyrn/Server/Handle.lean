import Vyrn.Server.Barrier

/-!
# What a read handle serves

With write-back a read handle answers from a tree and a buffer that follow the log separately:
`Exact` says that together they hold the map after a given number of commits, and `Exact.learn`
that a publication which continues the log, or whose tree makes up for what was missed, keeps it
so. `newest` is the last commit a handle knows of; nothing that is published takes it back
(`Exact.newest_learn`).
-/

namespace Vyrn

open SortedMap List

namespace Shard

/-! ## The map after a commit -/

section State

variable {commits : List (List (Bytes × Option Bytes))} {mutations : List PublishedMutation}
  {after before lsn : Nat}

theorem stateAt_append (h : lsn ≤ commits.length) (more : List (List (Bytes × Option Bytes)))
    (key : Bytes) : stateAt (commits ++ more) lsn key = stateAt commits lsn key := by
  rw [stateAt, stateAt, take_append_of_le_length h]

/-- What a publication brings leads from one point of the log to the next, or nowhere. -/
inductive Carried (commits : List (List (Bytes × Option Bytes))) (before : Nat) :
    List PublishedMutation → Nat → Prop where
  | nothing : Carried commits before [] before
  | commit {mutations : List (Bytes × Option Bytes)} (h : commits[before]? = some mutations) :
      Carried commits before (mutations.map (fun m => ⟨m.1, m.2, before + 1⟩)) (before + 1)

section

variable (h : Carried commits before mutations after)
include h

theorem Carried.le : before ≤ after := by
  cases h with
  | nothing => exact le_rfl
  | commit => exact Nat.le_succ _

theorem Carried.append (more : List (List (Bytes × Option Bytes))) :
    Carried (commits ++ more) before mutations after := by
  cases h with
  | nothing => exact .nothing
  | commit h =>
    refine .commit ?_
    rw [getElem?_append_left (List.getElem?_eq_some_iff.mp h).1]
    exact h

/-- A key is touched by a publication, or keeps its value and its entry. -/
theorem Carried.get (overlay : Overlay) (key : Bytes) :
    (after = before + 1 ∧
        (overlay.recordEach mutations).get key = some ⟨stateAt commits after key, after⟩) ∨
      (stateAt commits after key = stateAt commits before key ∧
        (overlay.recordEach mutations).get key = overlay.get key) := by
  cases h with
  | nothing => exact .inr ⟨rfl, rfl⟩
  | @commit _ h =>
    rw [stateAt, stateAt, take_add_one, h, foldl_append]
    exact (Overlay.get_recordEach key overlay _).imp_left (fun hget => ⟨rfl, hget⟩)

end

end State

/-! ## The handle -/

/-- The newest commit that a handle knows. -/
def newest (reader : ReadEngine Nat) : Nat :=
  match reader.overlay with
  | none => reader.tree
  | some overlay => (overlay.entries.map (fun e => e.2.revision)).foldl max reader.tree

theorem foldl_max_le_iff {lsn first : Nat} {revisions : List Nat} :
    revisions.foldl max first ≤ lsn ↔ first ≤ lsn ∧ ∀ revision ∈ revisions, revision ≤ lsn := by
  induction revisions generalizing first with
  | nil => simp
  | cons revision rest ih => simp [ih, and_assoc]

variable {reader : ReadEngine Nat}

theorem newest_le_iff {lsn : Nat} :
    newest reader ≤ lsn ↔ reader.tree ≤ lsn ∧
      ∀ overlay ∈ reader.overlay, ∀ e ∈ overlay.entries, e.2.revision ≤ lsn := by
  rw [newest]
  split
  · next hnone => simp [hnone]
  · next hsome =>
      rw [foldl_max_le_iff, hsome, forall_mem_map]
      simp

theorem newest_of_none (h : reader.overlay = none) : newest reader = reader.tree := by
  rw [newest, h]

/-- The handle serves the map after the first `lsn` commits: a key has had the value it is answered
    with since its entry in the buffer, or since the tree. -/
structure Exact (commits : List (List (Bytes × Option Bytes))) (reader : ReadEngine Nat)
    (lsn : Nat) : Prop where
  tree : reader.tree ≤ lsn
  length : lsn ≤ commits.length
  evicted : reader.overlayEvictedThrough ≤ reader.tree
  wellFormed : ∀ overlay ∈ reader.overlay, overlay.WellFormed
  newer : ∀ {key entry}, buffered reader.overlay key = some entry →
    reader.tree < entry.revision ∧ entry.revision ≤ lsn
  kept : ∀ {key entry}, buffered reader.overlay key = some entry →
    ∀ m, entry.revision ≤ m → m ≤ lsn → stateAt commits m key = entry.value
  missed : ∀ {key}, buffered reader.overlay key = none →
    ∀ m, reader.tree ≤ m → m ≤ lsn → stateAt commits m key = stateAt commits reader.tree key

/-- A handle after a publication, with `overlay` the buffer it had. -/
def learn (reader : ReadEngine Nat) (generation root : Nat) (mutations : List PublishedMutation)
    (overlay : Overlay) : ReadEngine Nat :=
  let recorded := mutations.foldl
    (fun overlay m => overlay.record m.key ⟨m.value, m.revision⟩) overlay
  if reader.overlayEvictedThrough < root then
    ⟨generation, root, some (recorded.evictThrough root), root⟩
  else ⟨generation, root, some recorded, reader.overlayEvictedThrough⟩

section Exact

variable {commits : List (List (Bytes × Option Bytes))} {reader : ReadEngine Nat} {lsn : Nat}

theorem Exact.append (h : Exact commits reader lsn)
    (more : List (List (Bytes × Option Bytes))) : Exact (commits ++ more) reader lsn := by
  refine ⟨h.tree, ?_, h.evicted, h.wellFormed, h.newer, fun hentry m hlow hhigh => ?_,
    fun hnone m hlow hhigh => ?_⟩
  · rw [length_append]
    exact Nat.le_add_right_of_le h.length
  · rw [stateAt_append (hhigh.trans h.length)]
    exact h.kept hentry m hlow hhigh
  · rw [stateAt_append (hhigh.trans h.length), stateAt_append (h.tree.trans h.length)]
    exact h.missed hnone m hlow hhigh

theorem mem_entries_iff {overlay : Overlay} (h : overlay.WellFormed)
    {e : Bytes × BufferedEntry} : e ∈ overlay.entries ↔ overlay.get e.1 = some e.2 := by
  rw [Overlay.get, lookup_eq_some h]

theorem Exact.newest_le (h : Exact commits reader lsn) : newest reader ≤ lsn := by
  refine newest_le_iff.mpr ⟨h.tree, fun overlay hoverlay e he => ?_⟩
  have hentry : buffered reader.overlay e.1 = some e.2 := by
    rw [Option.mem_def.mp hoverlay]
    exact (mem_entries_iff (h.wellFormed overlay hoverlay)).mp he
  exact (h.newer hentry).2

/-- **EXACT**: what is served is the map after any commit from the newest one that is known. -/
theorem Exact.serves {s : Shard} (h : Exact s.commits s.reader lsn) {m : Nat}
    (hlow : newest s.reader ≤ m) (hhigh : m ≤ lsn) (key : Bytes) :
    serves s key = stateAt s.commits m key := by
  obtain ⟨htree, hentries⟩ := newest_le_iff.mp hlow
  rw [Shard.serves]
  cases hentry : buffered s.reader.overlay key with
  | none => exact (h.missed hentry m htree hhigh).symm
  | some entry =>
    obtain ⟨overlay, hoverlay, hget⟩ := Option.bind_eq_some_iff.mp hentry
    have hmem := (mem_entries_iff (h.wellFormed overlay hoverlay) (e := (key, entry))).mpr hget
    exact (h.kept hentry m (hentries overlay hoverlay _ hmem) hhigh).symm

variable {overlay : Overlay} {mutations : List PublishedMutation}
  {generation root before after : Nat}

theorem learn_tree : (learn reader generation root mutations overlay).tree = root := by
  rw [learn]
  split_ifs <;> rfl

theorem learn_isSome : (learn reader generation root mutations overlay).overlay.isSome := by
  rw [learn]
  split_ifs <;> rfl

theorem buffered_overlay (hoverlay : reader.overlay = some overlay) {key : Bytes}
    {found : Option BufferedEntry} (hget : overlay.get key = found) :
    buffered reader.overlay key = found := by
  rw [hoverlay]
  exact hget

section

variable (h : Exact commits reader lsn) (hoverlay : reader.overlay = some overlay)
include h hoverlay

section

variable (hcarried : Carried commits before mutations after)
include hcarried

/-- What is left in the buffer is what is newer than the tree. -/
theorem Exact.buffered_learn (hlsn : lsn ≤ before) (htree : reader.tree ≤ root) (generation : Nat)
    (key : Bytes) {entry : BufferedEntry} :
    buffered (learn reader generation root mutations overlay).overlay key = some entry ↔
      (overlay.recordEach mutations).get key = some entry ∧ root < entry.revision := by
  rw [learn]
  split_ifs with hevict
  · exact Overlay.get_evictThrough
      (Overlay.recordEach_wellFormed (h.wellFormed overlay hoverlay)) root key
  · -- the watermark has not moved, and everything is newer already
    refine ⟨fun hentry => ⟨hentry, ?_⟩, fun hentry => hentry.1⟩
    have hroot : root ≤ reader.tree := (Nat.le_of_not_lt hevict).trans h.evicted
    have hentry : (overlay.recordEach mutations).get key = some entry := hentry
    rcases hcarried.get overlay key with ⟨_, hget⟩ | ⟨-, hget⟩
    · cases hget.symm.trans hentry
      have := h.tree
      show root < after
      omega
    · have hold := buffered_overlay hoverlay (hget.symm.trans hentry)
      exact lt_of_le_of_lt hroot (h.newer hold).1

omit hcarried in
theorem Exact.wellFormed_learn :
    ∀ b ∈ (learn reader generation root mutations overlay).overlay, b.WellFormed := by
  have hrecorded : (overlay.recordEach mutations).WellFormed :=
    Overlay.recordEach_wellFormed (h.wellFormed overlay hoverlay)
  rw [learn]
  split_ifs
  · rintro b ⟨⟩
    exact Overlay.evictThrough_wellFormed hrecorded root
  · rintro b ⟨⟩
    exact hrecorded

/-- **LEARN**: a publication that continues the log, or whose tree has all that was missed, is
    served exactly. -/
theorem Exact.learn (hlsn : lsn ≤ before) (hlength : after ≤ commits.length)
    (htree : reader.tree ≤ root) (hroot : root ≤ after) (hgap : lsn = before ∨ before ≤ root) :
    Exact commits (learn reader generation root mutations overlay) after := by
  have hafter := hcarried.le
  have hget := h.buffered_learn hoverlay hcarried hlsn htree generation
  -- a key that is not touched has had its old entry since then, or since the old tree
  have hold : ∀ {key found}, overlay.get key = found → buffered reader.overlay key = found :=
    buffered_overlay hoverlay
  have hstep : ∀ {key : Bytes} {value : Option Bytes} {low : Nat},
      stateAt commits after key = stateAt commits before key → low ≤ before →
      (∀ m, low ≤ m → m ≤ before → stateAt commits m key = value) →
      ∀ m, low ≤ m → m ≤ after → stateAt commits m key = value := by
    intro key value low hsame hlow hvalue m hm hhigh
    by_cases hbefore : m ≤ before
    · exact hvalue m hm hbefore
    · have hlast : m = after := by
        cases hcarried with
        | nothing => omega
        | commit => omega
      rw [hlast, hsame]
      exact hvalue before hlow le_rfl
  refine ⟨?_, hlength, ?_, h.wellFormed_learn hoverlay, fun {key entry} hentry => ?_,
    fun {key entry} hentry m hlow hhigh => ?_, fun {key} hnone m hlow hhigh => ?_⟩
  · rw [learn_tree]
    exact hroot
  · have hevicted := h.evicted
    rw [Shard.learn]
    split_ifs
    · exact le_rfl
    · exact hevicted.trans htree
  · obtain ⟨hrecorded, hnewer⟩ := (hget key).mp hentry
    rw [learn_tree]
    refine ⟨hnewer, ?_⟩
    rcases hcarried.get overlay key with ⟨-, htouched⟩ | ⟨-, hsame⟩
    · cases htouched.symm.trans hrecorded
      exact le_rfl
    · exact Nat.le_trans (h.newer (hold (hsame.symm.trans hrecorded))).2 (hlsn.trans hafter)
  · obtain ⟨hrecorded, hnewer⟩ := (hget key).mp hentry
    rcases hcarried.get overlay key with ⟨-, htouched⟩ | ⟨hstate, hsame⟩
    · cases htouched.symm.trans hrecorded
      rw [le_antisymm hhigh hlow]
    · have hentry := hold (hsame.symm.trans hrecorded)
      have hle := (h.newer hentry).2
      rcases hgap with rfl | hgap
      · exact hstep hstate hle (h.kept hentry) m hlow hhigh
      · omega
  · rw [learn_tree] at hlow ⊢
    have hevicted : ∀ {entry : BufferedEntry},
        (overlay.recordEach mutations).get key = some entry → entry.revision ≤ root := by
      intro entry hrecorded
      by_contra hnewer
      have hentry := (hget key).mpr ⟨hrecorded, Nat.lt_of_not_le hnewer⟩
      rw [hnone] at hentry
      cases hentry
    rcases hcarried.get overlay key with ⟨-, htouched⟩ | ⟨hstate, hsame⟩
    · have hlast := hevicted htouched
      dsimp only at hlast
      rw [show m = root by omega]
    · by_cases hmissed : before < root
      · rw [show m = root by cases hcarried <;> omega]
      · rcases hgap with rfl | _
        · have hbelow : root ≤ lsn := Nat.le_of_not_lt hmissed
          cases hfound : overlay.get key with
          | none =>
            have hvalue := hstep hstate h.tree (h.missed (hold hfound))
            rw [hvalue m (htree.trans hlow) hhigh, hvalue root htree (hbelow.trans hafter)]
          | some =>
            have hrevision := hevicted (hsame.trans hfound)
            have hvalue := hstep hstate (h.newer (hold hfound)).2 (h.kept (hold hfound))
            rw [hvalue m (hrevision.trans hlow) hhigh, hvalue root hrevision (hbelow.trans hafter)]
        · have hsplit : m = root ∨ (m = after ∧ root = before) := by
            cases hcarried <;> omega
          rcases hsplit with rfl | ⟨rfl, rfl⟩
          · rfl
          · exact hstate

/-- Nothing that a handle knows is forgotten. -/
theorem Exact.newest_learn (hlsn : lsn ≤ before) (htree : reader.tree ≤ root) :
    newest reader ≤ newest (Shard.learn reader generation root mutations overlay) := by
  obtain ⟨hnewtree, hnewest⟩ := newest_le_iff.mp
    (Nat.le_refl (newest (Shard.learn reader generation root mutations overlay)))
  rw [learn_tree] at hnewtree
  refine newest_le_iff.mpr ⟨htree.trans hnewtree, fun b hb e he => ?_⟩
  cases hoverlay.symm.trans hb
  have hfound := (mem_entries_iff (h.wellFormed overlay hoverlay)).mp he
  have hrevision := (h.newer (buffered_overlay hoverlay hfound)).2
  -- the key has this entry or a newer one, unless the tree has it
  obtain ⟨entry, hrecorded, hle⟩ : ∃ entry,
      (overlay.recordEach mutations).get e.1 = some entry ∧ e.2.revision ≤ entry.revision := by
    rcases hcarried.get overlay e.1 with ⟨-, htouched⟩ | ⟨-, hsame⟩
    · exact ⟨_, htouched, hrevision.trans (hlsn.trans hcarried.le)⟩
    · exact ⟨e.2, hsame.trans hfound, le_rfl⟩
  by_cases hnewer : root < entry.revision
  · have hentry := (h.buffered_learn hoverlay hcarried hlsn htree generation
      e.1).mpr ⟨hrecorded, hnewer⟩
    obtain ⟨b, hb, hget⟩ := Option.bind_eq_some_iff.mp hentry
    have hmem := (mem_entries_iff (h.wellFormed_learn hoverlay b hb) (e := (e.1, entry))).mpr hget
    exact hle.trans (hnewest b hb _ hmem)
  · exact hle.trans ((Nat.le_of_not_lt hnewer).trans hnewtree)

end

end

end Exact

end Shard

end Vyrn
