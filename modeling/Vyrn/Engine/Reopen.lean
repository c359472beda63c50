import Vyrn.Engine.Effect

/-!
# Opening after a crash

A checkpoint, writes after it, and a crash that keeps the log and at least what the checkpoint
synced. The first opening adopts the root that the last record names, or redoes the log. This goes
wrong in two places: a later opening may find under the number of a lost root a page that the redo
wrote, and a root's pages may survive while values below it are lost.

Main results: `opens_replay`, `opens_other_page`, `open_after_loss`, `open_lost_value`.
-/

namespace Vyrn

open SortedMap List Transition

/-! ## The depth bound -/

/-- The manifest's tree in what a crash leaves of the files. -/
def Database.checkpointTree (db : Database) (pages values : Nat) : PageTree :=
  ⟨db.pages.take pages, (ValueLog.recoverTail (db.values.take values)).toOption.getD [],
    db.manifest.root, db.manifest.len⟩

/-- Opening stays within the depth bound: a tree that the last record names is left, or every tree
    of a redo is within the bound. -/
def Database.ShallowOpen (db : Database) : Event → Prop
  | .reopen _ pages values _ _ =>
    db.beyond.getLast?.any (namesTree (db.pages.take pages) (db.values.take values)) = true ∨
      ShallowReplay (db.checkpointTree pages values) db.beyond
  | _ => True

/-! ## One opening -/

section Reopen

variable {db : Database} {levels : Nat} {base treeRows rows : Rows}
  {options : EngineOptions} {pages values : Nat} {revisions : Mvcc.State} {revisionValues : Bytes}

theorem Holds.checkpointTree_denotes (h : Holds db levels base treeRows rows)
    (hallows : db.synced ≤ pages ∧ db.syncedValues ≤ values) :
    ∃ depth, Denotes true (db.checkpointTree pages values) depth base := by
  obtain ⟨kept, htail, -, hcut⟩ := h.published.cut hallows.1 hallows.2
  obtain ⟨depth, hfront⟩ := hcut.tree
  rw [Database.checkpointTree, htail]
  exact ⟨depth, hfront.mono (List.take_prefix _ _) (List.take_prefix _ _) rfl rfl⟩

/-- **OPENS**: an opening that meets the condition and stays within the depth bound succeeds, and
    the database holds the map that it held. -/
theorem Holds.reopen_ok (h : Holds db levels base treeRows rows)
    (hallows : db.Allows (.reopen options pages values revisions revisionValues))
    (hfits : db.Fits (.reopen options pages values revisions revisionValues))
    (hshallow : db.ShallowOpen (.reopen options pages values revisions revisionValues)) :
    ∃ after levels', db.act (.reopen options pages values revisions revisionValues) = .ok after ∧
      levels' ≤ maxTreeDepth ∧ Holds after levels' base rows rows := by
  obtain ⟨kept, depth, htail, hcut, hbase, hleft⟩ := h.left hallows hfits
  obtain ⟨tree, hrecover, htree⟩ := recoverTree_ok hbase htail h.leads.replay hleft
    h.caught.valid h.caught.sorted (hshallow.imp_right (fun hreplay => by
      rw [Database.checkpointTree, htail] at hreplay
      exact hreplay))
  obtain ⟨levels', hden, _⟩ := recoverTree_of_ok hbase htail h.leads.replay hleft
    h.caught.valid h.caught.sorted hcut.whole hrecover
  obtain ⟨engine, hopen⟩ := @openWithOptions_ok true
    (db.files pages values revisions revisionValues) levels' rows tree hrecover hden
    (hden.shallow_iff.mp htree) h.defined options
  obtain ⟨levels'', hd, hholds⟩ := h.reopen hallows hfits hopen
  exact ⟨_, levels'', by rw [Database.act, hopen]; rfl, hd, hholds⟩

end Reopen

/-! ## Any number of openings -/

def Event.isReopen : Event → Bool
  | .reopen _ _ _ _ _ => true
  | _ => false

/-- Openings one after the other, each of which meets the condition and stays within the depth
    bound. -/
def Database.SafelyOpened : Database → List Event → Prop
  | _, [] => True
  | db, event :: rest => event.isReopen = true ∧ db.Allows event ∧ db.Fits event ∧
      db.ShallowOpen event ∧ ∀ after, db.act event = .ok after → after.SafelyOpened rest

/-- **OPENINGS**: they all succeed and lead to the map that was held before the first. -/
theorem Holds.opens {events : List Event} {db : Database} {levels : Nat}
    {base treeRows rows : Rows} (h : Holds db levels base treeRows rows)
    (hd : levels ≤ maxTreeDepth) (hsafe : db.SafelyOpened events) :
    ∃ final levels' treeRows', events.foldlM Database.act db = .ok final ∧
      levels' ≤ maxTreeDepth ∧ Holds final levels' base treeRows' rows := by
  induction events generalizing db levels base treeRows rows with
  | nil => exact ⟨db, _, treeRows, rfl, hd, h⟩
  | cons event rest ih =>
    obtain ⟨hreopen, hallows, hfits, hshallow, hrest⟩ := hsafe
    cases event with
    | reopen =>
      obtain ⟨after, levels', hact, hd, hholds⟩ := h.reopen_ok hallows hfits hshallow
      obtain ⟨final, levels'', treeRows', hrun, hd', hholds'⟩ :=
        ih hholds hd (hrest after hact)
      refine ⟨final, levels'', treeRows', ?_, hd', hholds'⟩
      rw [foldlM_cons, hact]
      exact hrun
    | perform _ | commit _ _ | replicate _ | beginCheckpoint | compact | finishCheckpoint
    | failCheckpoint => cases hreopen

/-! ## After a checkpoint -/

/-- The last record beyond the manifest names the engine's tree, or no page. -/
def Database.Named (db : Database) : Prop :=
  db.unadopted = none ∧ ∀ record ∈ db.beyond.getLast?,
    (db.engine.writeBack = none ∧ record.root = db.engine.tree.root ∧
      record.len = db.engine.tree.len) ∨ record.root = writeBackRoot

variable {after db : Database}

theorem Database.Named.write (h : db.Named) (hreached : db.manifest.lsn ≤ db.engine.lastLsn)
    (hsame : after = { db with engine := after.engine })
    (hadvances : Advances db.engine after.engine) : after.Named := by
  have hmanifest : after.manifest = db.manifest := by rw [hsame]
  refine ⟨by rw [hsame]; exact h.1, fun record hlast => ?_⟩
  rw [Database.beyond, hmanifest] at hlast
  rcases hadvances with ⟨hwal, hbuffer, hroot, hlen, _⟩ | ⟨operations, hlog⟩
  · rw [hwal] at hlast
    rw [hbuffer, hroot, hlen]
    exact h.2 record hlast
  · obtain ⟨logged, hwal, hlsn, _, hnames⟩ := hlog.wal
    have hnew : db.manifest.lsn < logged.lsn := hlsn ▸ Nat.lt_succ_of_le hreached
    rw [hwal, filter_append, filter_singleton, decide_eq_true hnew, cond_true,
      getLast?_concat, Option.mem_some_iff] at hlast
    subst hlast
    rcases hnames with ⟨_, hbuf, hroot, hlen⟩ | ⟨_, _, hroot, _⟩
    · exact .inl ⟨hbuf, hroot, hlen⟩
    · exact .inr hroot

variable {options : EngineOptions} {revisions : Mvcc.State} {revisionValues : Bytes}
  {pages values : Nat}

/-- A crash that loses no value, or the tree that the last record names, meets the condition. -/
theorem Database.Named.fits (h : db.Named) (hsuper : SuperFirst (db.pages.take pages))
    (hids : db.pages.length ≤ writeBackRoot)
    (hleft : ∀ record ∈ db.beyond.getLast?, db.values.length ≤ values ∨
      namesTree (db.pages.take pages) (db.values.take values) record = false) :
    db.Fits (.reopen options pages values revisions revisionValues) := by
  intro record hlast
  rcases h.2 record hlast with ⟨hbuf, hroot, hlen⟩ | hroot
  · refine (hleft record hlast).imp_left (fun hall => ⟨h.1, hroot, hlen, ?_, hall⟩)
    rw [hbuf]
    rfl
  · refine .inr (namesTree_beyond hsuper ?_)
    rw [hroot]
    exact (length_take_le' _ _).trans hids

/-- A checkpoint that finishes: its map is the one that the log leads on from. -/
theorem Database.Consistent.finish (h : db.Consistent) (hstep : db.Step .finishCheckpoint after) :
    ∃ rows, (∃ levels, Serves true after.engine levels rows) ∧ after.HoldsOver rows ∧
      after.Named := by
  obtain ⟨base, levels, treeRows, rows, h⟩ := h
  cases hstep with
  | refused hwrite => cases hwrite
  | done _ hrun =>
    obtain ⟨job, hjob, hrun⟩ := bind_eq_ok.mp hrun
    obtain ⟨engine, hfinish, hrun⟩ := bind_eq_ok.mp hrun
    cases hrun
    obtain ⟨levels', hholds, hwal⟩ := h.finishCheckpoint (theJob_ok hjob) hfinish
    refine ⟨rows, ⟨levels', hholds.serves⟩, ⟨levels', rows, rows, hholds⟩, rfl, ?_⟩
    intro record hlast
    rw [Database.beyond, hwal] at hlast
    cases hlast

/-- Writes after it. -/
theorem writes_named {written : Database} {writes : List Event} {base : Rows}
    (h : db.HoldsOver base) (hnamed : db.Named)
    (hrun : Run Database.Step (fun _ event => event.isWrite = true) db writes written) :
    written.HoldsOver base ∧ written.Named := by
  refine hrun.invariant (I := fun db => db.HoldsOver base ∧ db.Named)
    (fun {t u event} h hwrite hstep => ?_) ⟨h, hnamed⟩
  obtain ⟨hholds, hsame, hadvances⟩ := h.1.write hwrite hstep
  obtain ⟨_, _, _, hbefore⟩ := h.1
  exact ⟨hholds, h.2.write hbefore.leads.reached hsame hadvances⟩

section Written

variable {events writes rest : List Event} {db checkpointed written : Database}
  {options : EngineOptions} {pages values : Nat} {revisions : Mvcc.State} {revisionValues : Bytes}
  (hrun : Run Database.Step Database.Fits Database.empty events db)
  (hfinish : db.Step .finishCheckpoint checkpointed)
  (hwrites : Run Database.Step (fun _ event => event.isWrite = true) checkpointed
    writes written)
  (hids : written.pages.length ≤ writeBackRoot)
  (hallows : written.Allows (.reopen options pages values revisions revisionValues))
include hrun hfinish hwrites hids hallows

section

variable (hleft : ∀ record ∈ written.beyond.getLast?, written.values.length ≤ values ∨
    namesTree (written.pages.take pages) (written.values.take values) record = false)
  (hshallow : written.ShallowOpen (.reopen options pages values revisions revisionValues))
include hleft hshallow

/-- The first opening. -/
theorem opens_first :
    ∃ base opened levels, (∃ levels, Serves true checkpointed.engine levels base) ∧
      written.act (.reopen options pages values revisions revisionValues) = .ok opened ∧
      levels ≤ maxTreeDepth ∧ Holds opened levels base (replayLog base written.beyond)
        (replayLog base written.beyond) := by
  obtain ⟨base, hserved, hover, hnamed⟩ := (consistent_of_run hrun).finish hfinish
  obtain ⟨⟨levels, treeRows, rows, h⟩, hnamed⟩ := writes_named hover hnamed hwrites
  obtain ⟨_, _, hsuper, _⟩ := h.checkpointTree_denotes hallows
  obtain ⟨opened, levels', hact, hd, hopened⟩ :=
    h.reopen_ok hallows (hnamed.fits hsuper hids hleft) hshallow
  have hrows : rows = replayLog base written.beyond := h.leads.replay
  rw [hrows] at hopened
  exact ⟨base, opened, levels', hserved, hact, hd, hopened⟩

/-- **LOSS**: a checkpoint, writes after it and a crash that loses parts of both files. When it loses
    no value, or the tree that the last record names, and opening stays within the depth bound,
    opening succeeds, and every key reads as it was committed. -/
theorem open_after_loss :
    ∃ rows opened, (∃ levels, Serves true checkpointed.engine levels rows) ∧
      written.act (.reopen options pages values revisions revisionValues) = .ok opened ∧
      ∀ key, opened.engine.treeGet key
        = .ok ((lookup key (replayLog rows written.beyond)).map Versioned.value) := by
  obtain ⟨base, opened, levels, hserved, hact, hd, hopened⟩ :=
    opens_first hrun hfinish hwrites hids hallows hleft hshallow
  exact ⟨base, opened, hserved, hact, fun key => (hopened.serves.reads hd key).1⟩

end

/-- **RECOVERY**: a checkpoint, writes after it and a crash that loses none of the values. When the
    openings after the first one meet the condition and all of them stay within the depth bound, they
    succeed, and the map then served is the one of the checkpoint with the records beyond it
    applied. -/
theorem opens_replay (hvalues : written.values.length ≤ values)
    (hshallow : written.ShallowOpen (.reopen options pages values revisions revisionValues))
    (hrest : ∀ opened, written.act (.reopen options pages values revisions revisionValues)
      = .ok opened → opened.SafelyOpened rest) :
    ∃ rows final, (∃ levels, Serves true checkpointed.engine levels rows) ∧
      (.reopen options pages values revisions revisionValues :: rest).foldlM Database.act written
        = .ok final ∧
      ∀ key, final.engine.treeGet key
          = .ok ((lookup key (replayLog rows written.beyond)).map Versioned.value) ∧
        final.engine.treeRevision key
          = .ok ((lookup key (replayLog rows written.beyond)).map Versioned.revision) := by
  obtain ⟨base, opened, levels, hserved, hact, hd, hopened⟩ :=
    opens_first hrun hfinish hwrites hids hallows (fun _ _ => .inl hvalues) hshallow
  obtain ⟨final, levels', treeRows, hopens, hd', hfinal⟩ := hopened.opens hd (hrest opened hact)
  refine ⟨base, final, hserved, ?_, hfinal.serves.reads hd'⟩
  rw [foldlM_cons, hact]
  exact hopens

end Written

/-- A redo that leads to a tree that can be counted stays within the depth bound. -/
theorem Database.Consistent.shallowOpen (h : db.Consistent)
    (hallows : db.Allows (.reopen options pages values revisions revisionValues))
    {tree : PageTree} (hredo : replayRecords (db.checkpointTree pages values) db.beyond = .ok tree)
    {count : Nat} (hcount : tree.countExcluding internalPrefix = .ok count) :
    db.ShallowOpen (.reopen options pages values revisions revisionValues) := by
  obtain ⟨_, _, _, _, h⟩ := h
  obtain ⟨depth, hbase⟩ := h.checkpointTree_denotes hallows
  obtain ⟨⟨levels, -, hden⟩, hreplay⟩ := replayRecords_of_ok
    (fun record hrec => h.caught.valid record (mem_of_mem_filter hrec)) hbase hredo
  exact .inr (hreplay (hden.shallow_iff.mpr (hden.within_of_count hcount)))

theorem lookup_replayed_put {lsn : Nat} {rows : Rows} {key value : Bytes}
    (huser : isInternal key = false) :
    lookup key (replayed lsn rows (.put key value)) = some ⟨value, lsn⟩ := by
  have hother : key ≠ tombstoneKey key := by
    intro heq
    rw [heq] at huser
    cases huser
  rw [replayed, if_neg (by rw [huser]; exact Bool.false_ne_true), lookup_erase, if_neg hother,
    lookup_put, if_pos rfl]

/-- A checkpoint and one write after it, with what is evaluated there. -/
theorem exists_written (events : List Event) (event : Event) (hfits : ∀ db : Database, db.Fits event)
    {p : Database → Prop} [DecidablePred p]
    (h : (follow Database.Fits Database.follow Database.empty events).bind (fun db =>
      (db.follow .finishCheckpoint).bind (fun checkpointed =>
        (checkpointed.follow event).map (fun written => decide (p written)))) = some true) :
    ∃ db checkpointed written,
      Run Database.Step Database.Fits Database.empty events db ∧
      db.Step .finishCheckpoint checkpointed ∧ checkpointed.Step event written ∧
      Run Database.Step Database.Fits Database.empty
        (events ++ [.finishCheckpoint] ++ [event]) written ∧ p written := by
  obtain ⟨db, hdb, h⟩ := Option.bind_eq_some_iff.mp h
  obtain ⟨checkpointed, hfinish, h⟩ := Option.bind_eq_some_iff.mp h
  obtain ⟨written, hwrite, hp⟩ := Option.map_eq_some_iff.mp h
  have hrun := Run.start.follow _ Database.follow_step hdb
  have hfinish := Database.follow_step hfinish
  have hwrite := Database.follow_step hwrite
  have hfree : db.Fits .finishCheckpoint := trivial
  exact ⟨db, checkpointed, written, hrun, hfinish, hwrite,
    (hrun.next hfree hfinish).next (hfits checkpointed) hwrite, of_decide_eq_true hp⟩

/-- A commit after an empty checkpoint whose page is lost. The first opening redoes it and writes
    another page under the lost number, with one entry; the second finds no tree of two entries
    there and redoes the commit again. -/
theorem opens_replay_twice :
    ∃ db checkpointed written rows final,
      Run Database.Step Database.Fits Database.empty [.beginCheckpoint, .compact] db ∧
      db.Step .finishCheckpoint checkpointed ∧
      checkpointed.Step (.perform (.writeBatch [.put [1] [7], .put [2] [9]])) written ∧
      written.pages.length = 2 ∧
      [.reopen ⟨0, false⟩ 1 0 ⟨0, 0, []⟩ [], .reopen ⟨0, false⟩ 8 0 ⟨0, 0, []⟩ []].foldlM
        Database.act written = .ok final ∧
      ∀ key, final.engine.treeGet key
        = .ok ((lookup key (replayLog rows written.beyond)).map Versioned.value) := by
  obtain ⟨db, checkpointed, written, hrun, hfinish, hwrite, hwritten, hfacts⟩ :=
    exists_written [.beginCheckpoint, .compact]
      (.perform (.writeBatch [.put [1] [7], .put [2] [9]])) (fun _ => trivial)
      (p := fun written => (do
        let opened ← written.act (.reopen ⟨0, false⟩ 1 0 ⟨0, 0, []⟩ [])
        let tree ← replayRecords (written.checkpointTree 1 0) written.beyond
        let count ← tree.countExcluding internalPrefix
        let tree' ← replayRecords (opened.checkpointTree 8 0) opened.beyond
        let count' ← tree'.countExcluding internalPrefix
        return decide (written.pages.length = 2 ∧ written.values.length ≤ 0 ∧
          (written.Allows (.reopen ⟨0, false⟩ 1 0 ⟨0, 0, []⟩ []) ∧
            written.Fits (.reopen ⟨0, false⟩ 1 0 ⟨0, 0, []⟩ [])) ∧
          opened.Allows (.reopen ⟨0, false⟩ 8 0 ⟨0, 0, []⟩ []) ∧
            opened.Fits (.reopen ⟨0, false⟩ 8 0 ⟨0, 0, []⟩ []))) = .ok true)
      (by decide +kernel)
  obtain ⟨opened, hopen, hfacts⟩ := bind_eq_ok.mp hfacts
  obtain ⟨tree, hredo, hfacts⟩ := bind_eq_ok.mp hfacts
  obtain ⟨count, hcount, hfacts⟩ := bind_eq_ok.mp hfacts
  obtain ⟨tree', hredo', hfacts⟩ := bind_eq_ok.mp hfacts
  obtain ⟨count', hcount', hfacts⟩ := bind_eq_ok.mp hfacts
  obtain ⟨hpages, hvalues, ⟨hallows, hfits⟩, hallows', hfits'⟩ :=
    of_decide_eq_true (Except.ok.inj hfacts)
  obtain ⟨rows, final, _, hopens, hreads⟩ := @opens_replay _ _
    [.reopen ⟨0, false⟩ 8 0 ⟨0, 0, []⟩ []] _ _ _ _ _ _ _ _ hrun hfinish (.next .start rfl hwrite)
    (hpages ▸ by decide) hallows hvalues
    ((consistent_of_run hwritten).shallowOpen hallows hredo hcount) (fun reached hreached => by
      cases hopen.symm.trans hreached
      exact ⟨rfl, hallows', hfits', (consistent_of_run
        (hwritten.next hfits (.done hallows hopen))).shallowOpen hallows' hredo' hcount',
        fun _ _ => trivial⟩)
  exact ⟨db, checkpointed, written, rows, final, hrun, hfinish, hwrite, hpages, hopens,
    fun key => (hreads key).1⟩

/-- **OTHER PAGE**: a key is written, deleted and checkpointed, then written again together with
    another one, and the crash loses the page of that commit. The first opening redoes the two puts;
    the page it writes first has the number of the lost root and as many entries as the record
    names. The second opening adopts it, and the other key is gone. -/
theorem opens_other_page :
    ∃ db checkpointed written final,
      Run Database.Step Database.Fits Database.empty
        [.perform (.put [1] [7]), .perform (.delete [1]), .beginCheckpoint, .compact] db ∧
      db.Step .finishCheckpoint checkpointed ∧
      checkpointed.Step (.perform (.writeBatch [.put [1] [8], .put [2] [9]])) written ∧
      written.Allows (.reopen ⟨0, false⟩ 2 0 ⟨0, 0, []⟩ []) ∧ written.values = [] ∧
      [.reopen ⟨0, false⟩ 2 0 ⟨0, 0, []⟩ [], .reopen ⟨0, false⟩ 8 0 ⟨0, 0, []⟩ []].foldlM
        Database.act written = .ok final ∧
      (∀ rows, lookup [2] (replayLog rows written.beyond) = some ⟨[9], 3⟩) ∧
      final.engine.treeGet [2] = .ok none := by
  obtain ⟨db, checkpointed, written, hrun, hfinish, hwrite, _, hfacts⟩ :=
    exists_written [.perform (.put [1] [7]), .perform (.delete [1]), .beginCheckpoint, .compact]
      (.perform (.writeBatch [.put [1] [8], .put [2] [9]])) (fun _ => trivial)
      (p := fun written => (do
        let final ← [Event.reopen ⟨0, false⟩ 2 0 ⟨0, 0, []⟩ [],
          .reopen ⟨0, false⟩ 8 0 ⟨0, 0, []⟩ []].foldlM Database.act written
        let lost ← final.engine.treeGet [2]
        return decide (written.Allows (.reopen ⟨0, false⟩ 2 0 ⟨0, 0, []⟩ []) ∧
          written.values = [] ∧
          written.beyond = [WalRecord.mk 3 [.put [1] [8], .put [2] [9]] 2 2] ∧
          lost = none)) = .ok true) (by decide +kernel)
  obtain ⟨final, hopens, hfacts⟩ := bind_eq_ok.mp hfacts
  obtain ⟨lost, hlost, hfacts⟩ := bind_eq_ok.mp hfacts
  obtain ⟨hallows, hvalues, hbeyond, rfl⟩ := of_decide_eq_true (Except.ok.inj hfacts)
  refine ⟨db, checkpointed, written, final, hrun, hfinish, hwrite, hallows, hvalues, hopens,
    fun rows => ?_, hlost⟩
  have hlast : replayLog rows written.beyond
      = replayed 3 (replayed 3 rows (.put [1] [8])) (.put [2] [9]) := by
    rw [hbeyond]
    rfl
  rw [hlast]
  exact lookup_replayed_put rfl

/-- A value in the value log, of which nothing is left, and neither is the page that refers to it.
    Opening stores the value again. -/
theorem open_after_loss_redone :
    ∃ db checkpointed written rows opened,
      Run Database.Step Database.Fits Database.empty [.beginCheckpoint, .compact] db ∧
      db.Step .finishCheckpoint checkpointed ∧
      checkpointed.Step (.perform (.put [1] (replicate 1025 0))) written ∧
      written.pages.length = 2 ∧ written.values.length = 1057 ∧
      written.act (.reopen ⟨0, false⟩ 1 0 ⟨0, 0, []⟩ []) = .ok opened ∧
      ∀ key, opened.engine.treeGet key
        = .ok ((lookup key (replayLog rows written.beyond)).map Versioned.value) := by
  obtain ⟨db, checkpointed, written, hrun, hfinish, hwrite, hwritten, hfacts⟩ :=
    exists_written [.beginCheckpoint, .compact] (.perform (.put [1] (replicate 1025 0)))
      (fun _ => trivial) (p := fun written => (do
        let tree ← replayRecords (written.checkpointTree 1 0) written.beyond
        let count ← tree.countExcluding internalPrefix
        return decide (written.Allows (.reopen ⟨0, false⟩ 1 0 ⟨0, 0, []⟩ []) ∧
          written.pages.length = 2 ∧ written.values.length = 1057 ∧
          ∀ record ∈ written.beyond.getLast?,
            namesTree (written.pages.take 1) (written.values.take 0) record = false)) = .ok true)
      (by decide +kernel)
  obtain ⟨tree, hredo, hfacts⟩ := bind_eq_ok.mp hfacts
  obtain ⟨count, hcount, hfacts⟩ := bind_eq_ok.mp hfacts
  obtain ⟨hallows, hpages, hvalues, hlost⟩ := of_decide_eq_true (Except.ok.inj hfacts)
  obtain ⟨rows, opened, _, hopen, hreads⟩ := open_after_loss hrun hfinish (.next .start rfl hwrite)
    (hpages ▸ by decide) hallows (fun record hlast => .inr (hlost record hlast))
    ((consistent_of_run hwritten).shallowOpen hallows hredo hcount)
  exact ⟨db, checkpointed, written, rows, opened, hrun, hfinish, hwrite, hpages, hvalues, hopen,
    hreads⟩

/-- **LOST VALUE**: the page of a commit survives a crash and the value that it refers to does not.
    Opening adopts the root, and the committed key cannot be read. -/
theorem open_lost_value :
    ∃ db checkpointed written opened,
      Run Database.Step Database.Fits Database.empty [.beginCheckpoint, .compact] db ∧
      db.Step .finishCheckpoint checkpointed ∧
      checkpointed.Step (.perform (.put [1] (replicate 1025 0))) written ∧
      written.Allows (.reopen ⟨0, false⟩ 2 0 ⟨0, 0, []⟩ []) ∧
      written.act (.reopen ⟨0, false⟩ 2 0 ⟨0, 0, []⟩ []) = .ok opened ∧
      (∀ rows, lookup [1] (replayLog rows written.beyond)
        = some ⟨replicate 1025 0, 1⟩) ∧
      opened.engine.treeGet [1]
        = .error (.corruptValue 0 "value reference is out of bounds") := by
  obtain ⟨db, checkpointed, written, hrun, hfinish, hwrite, _, hfacts⟩ :=
    exists_written [.beginCheckpoint, .compact] (.perform (.put [1] (replicate 1025 0)))
      (fun _ => trivial) (p := fun written => (do
        let opened ← written.act (.reopen ⟨0, false⟩ 2 0 ⟨0, 0, []⟩ [])
        return decide (written.Allows (.reopen ⟨0, false⟩ 2 0 ⟨0, 0, []⟩ []) ∧
          written.beyond = [WalRecord.mk 1 [.put [1] (replicate 1025 0)] 1 1] ∧
          opened.engine.treeGet [1]
            = Except.error (Error.corruptValue 0 "value reference is out of bounds"))) = .ok true)
      (by decide +kernel)
  obtain ⟨opened, hopen, hfacts⟩ := bind_eq_ok.mp hfacts
  obtain ⟨hallows, hbeyond, hread⟩ := of_decide_eq_true (Except.ok.inj hfacts)
  refine ⟨db, checkpointed, written, opened, hrun, hfinish, hwrite, hallows, hopen,
    fun rows => ?_, hread⟩
  have hlast : replayLog rows written.beyond
      = replayed 1 rows (.put [1] (replicate 1025 0)) := by
    rw [hbeyond]
    rfl
  rw [hlast]
  exact lookup_replayed_put rfl

end Vyrn
