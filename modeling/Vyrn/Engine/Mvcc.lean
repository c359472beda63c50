import Vyrn.Lib.History
import Vyrn.Lib.SortedMap
import Vyrn.ValueLog

/-!
# Retained versions — what snapshot reads below the live tree see

Per key the store keeps the versions written while a snapshot was open, their values in a
value log of their own. `historyOf` is a key's row of versions with the values read; reading,
appending, collecting and compacting are then the operations of `History` on it (`getAt_ok`,
`historyOf_appendPrepared`, `collect_some`, `compact_ok`).
-/

namespace Vyrn

open SortedMap List History

namespace Mvcc

/-! ## The code -/

/-- A version: its revision, and where its value is. `none` is a deletion. -/
abbrev Version := Nat × Option ValueRef

/-- `gcFloor` is how far collection has swept, `coveredThrough` the lowest revision whose history
    is complete. -/
structure State where
  gcFloor : Nat
  coveredThrough : Nat
  histories : List (Bytes × List Version)
  deriving DecidableEq, Repr

/-- The versions kept of a key, oldest first. -/
def State.versions (state : State) (key : Bytes) : List Version :=
  (lookup key state.histories).getD []

def getAt (state : State) (values : Bytes) (key : Bytes) (revision : Nat) :
    Except Error (Option Bytes) :=
  if revision < state.coveredThrough then
    .error (.snapshotTooOld revision state.coveredThrough)
  else
    match valueAt (state.versions key) revision with
    | none => .ok none
    | some reference => do
      let value ← ValueLog.read values reference
      return some value

def prepareValue (values : Bytes) (revision : Nat) : Option Bytes →
    Except Error (Option ValueRef × Bytes)
  | none => .ok (none, values)
  | some value => do
    let (reference, values) ← ValueLog.append values value revision
    return (some reference, values)

def appendPrepared (state : State) (key : Bytes) (revision : Nat) (value : Option ValueRef) :
    State :=
  { state with
    histories := put key (push revision (state.versions key) value) state.histories }

def append (state : State) (values : Bytes) (key : Bytes) (revision : Nat)
    (value : Option Bytes) : Except Error (State × Bytes) := do
  let (reference, values) ← prepareValue values revision value
  return (appendPrepared state key revision reference, values)

/-- Rewrites a row of versions' values into `destination`. -/
def compactVersions (source : Bytes) : Bytes → List Version →
    Except Error (List Version × Bytes)
  | destination, [] => .ok ([], destination)
  | destination, (revision, none) :: rest => do
    let (others, destination) ← compactVersions source destination rest
    return ((revision, none) :: others, destination)
  | destination, (revision, some reference) :: rest => do
    let value ← ValueLog.read source reference
    let (moved, destination) ← ValueLog.append destination value revision
    let (others, destination) ← compactVersions source destination rest
    return ((revision, some moved) :: others, destination)

def compactHistories (source : Bytes) : Bytes → List (Bytes × List Version) →
    Except Error (List (Bytes × List Version) × Bytes)
  | destination, [] => .ok ([], destination)
  | destination, (key, versions) :: rest => do
    let (versions, destination) ← compactVersions source destination versions
    let (others, destination) ← compactHistories source destination rest
    return ((key, versions) :: others, destination)

def compact (state : State) (source destination : Bytes) : Except Error (State × Bytes) := do
  let (histories, destination) ← compactHistories source destination state.histories
  return ({ state with histories := histories }, destination)

/-- What collection keeps of a key's versions. -/
def keep (floor : Nat) (versions : List Version) : List Version :=
  versions.drop (keepFrom floor versions)

/-- Drops the versions no snapshot can read; returns how many went. -/
def collect (state : State) (oldestActive : Option Nat) (latest : Nat) : Nat × State :=
  let floor := oldestActive.getD latest
  let removed := (state.histories.map (fun h => keepFrom floor h.2 +
    if oldestActive.isNone then (keep floor h.2).length else 0)).sum
  (removed,
    { gcFloor := max state.gcFloor floor
      coveredThrough := max state.coveredThrough floor
      histories :=
        if oldestActive.isNone then []
        else state.histories.map (fun h => (h.1, keep floor h.2)) })

/-! ## Versions as a history -/

/-- A version whose value reads, and can be stored again. -/
def Sound (values : Bytes) (version : Version) : Prop :=
  ∀ reference ∈ version.2, ValueLog.Readable values reference ∧
    ValueLog.Admissible version.1 (ValueLog.valueOf values reference)

/-- A row of versions with the values read. -/
def readVersions (values : Bytes) (versions : List Version) : List (Nat × Option Bytes) :=
  mapValues (ValueLog.valueOf values) versions

/-- A key's history. -/
def historyOf (state : State) (values : Bytes) (key : Bytes) : List (Nat × Option Bytes) :=
  readVersions values (state.versions key)

/-- The keys that have a history. -/
def State.keys (state : State) : List Bytes := state.histories.map Prod.fst

/-- Every version reads, and each key has one row. -/
structure WellFormed (state : State) (values : Bytes) : Prop where
  sorted : Sorted state.histories
  sound : ∀ key, ∀ version ∈ state.versions key, Sound values version

variable {source : Bytes} {state : State} {version : Version}

section Reading

variable {values values' : Bytes} {reference : ValueRef}

/-- **GET AT**: a covered read sees the history. -/
theorem getAt_ok (h : WellFormed state values) (key : Bytes) {revision : Nat}
    (hcov : state.coveredThrough ≤ revision) :
    getAt state values key revision
      = .ok (valueAt (historyOf state values key) revision) := by
  rw [getAt, if_neg (not_lt.mpr hcov), historyOf, readVersions, valueAt_mapValues]
  cases hval : valueAt (state.versions key) revision with
  | none => rfl
  | some reference =>
    obtain ⟨version, hfind, href⟩ := Option.bind_eq_some_iff.mp hval
    have hmem := mem_reverse.mp (mem_of_find?_eq_some hfind)
    have hread : ValueLog.read values reference = .ok (ValueLog.valueOf values reference) :=
      (h.sound key version hmem reference href).1
    dsimp only
    rw [hread]
    rfl

theorem valueOf_mono (h : values <+: values') (hread : ValueLog.Readable values reference) :
    ValueLog.Readable values' reference ∧
      ValueLog.valueOf values' reference = ValueLog.valueOf values reference := by
  obtain ⟨more, rfl⟩ := h
  have hgrown := ValueLog.read_mono more hread
  have hval : ValueLog.valueOf (values ++ more) reference = ValueLog.valueOf values reference := by
    rw [ValueLog.valueOf, hgrown]
  exact ⟨ValueLog.readable_of_read hgrown, hval⟩

theorem Sound.mono (h : values <+: values') (hsound : Sound values version) :
    Sound values' version := by
  intro reference href
  obtain ⟨hread, _⟩ := hsound reference href
  obtain ⟨hread', hval⟩ := valueOf_mono h hread
  exact ⟨hread', by rwa [hval]⟩

/-- A grown value log reads the same versions. -/
theorem readVersions_mono (h : values <+: values') {versions : List Version}
    (hsound : ∀ version ∈ versions, Sound values version) :
    readVersions values' versions = readVersions values versions := by
  refine map_congr_left (fun version hmem => ?_)
  obtain ⟨revision, value⟩ := version
  cases value with
  | none => rfl
  | some reference =>
    obtain ⟨hread, _⟩ := hsound _ hmem reference rfl
    have hval := (valueOf_mono h hread).2
    show (revision, some (ValueLog.valueOf values' reference)) = _
    rw [hval]
    rfl

theorem WellFormed.mono (h : WellFormed state values) (hvalues : values <+: values') :
    WellFormed state values' ∧ ∀ key, historyOf state values' key = historyOf state values key :=
  ⟨⟨h.sorted, fun key version hmem => (h.sound key version hmem).mono hvalues⟩,
    fun key => readVersions_mono hvalues (h.sound key)⟩

end Reading

/-! ## Appending -/

section Appending

variable {state : State} {values : Bytes} {revision : Nat} {value : Option Bytes} {p : Bytes → Prop}

theorem appendPrepared_keys (h : ∀ k ∈ state.keys, p k) {key : Bytes} (hkey : p key)
    {value : Option ValueRef} : ∀ k ∈ (appendPrepared state key revision value).keys, p k := by
  intro k hk
  obtain ⟨row, hrow, rfl⟩ := mem_map.mp hk
  rcases mem_put hrow with rfl | hrow
  · exact hkey
  · exact h _ (mem_map_of_mem hrow)

theorem versions_appendPrepared (key : Bytes) (revision : Nat) (value : Option ValueRef)
    (j : Bytes) :
    (appendPrepared state key revision value).versions j
      = if j = key then push revision (state.versions key) value
        else state.versions j := by
  rw [State.versions, appendPrepared, lookup_put]
  split_ifs
  · rfl
  · rfl

/-- **APPEND**: a prepared version is pushed on its key's history. -/
theorem historyOf_appendPrepared (h : WellFormed state values) {key : Bytes} {revision : Nat}
    {value : Option ValueRef} (hsound : Sound values (revision, value)) :
    WellFormed (appendPrepared state key revision value) values ∧
      ∀ j, historyOf (appendPrepared state key revision value) values j
        = if j = key then
            push revision (historyOf state values key)
              (value.map (ValueLog.valueOf values))
          else historyOf state values j := by
  refine ⟨⟨h.sorted.put _ _, fun j version hmem => ?_⟩, fun j => ?_⟩
  · rw [versions_appendPrepared] at hmem
    split_ifs at hmem
    · obtain ⟨kept, hkept, hpush⟩ := push_eq revision (state.versions key) value
      rw [hpush] at hmem
      rcases mem_append.mp hmem with hmem | hmem
      · exact h.sound key version (hkept hmem)
      · exact mem_singleton.mp hmem ▸ hsound
    · exact h.sound j version hmem
  · rw [historyOf, versions_appendPrepared]
    split_ifs
    · exact push_mapValues _ _ _ _
    · rfl

theorem prepareValue_ok (values : Bytes) (hadm : ∀ v ∈ value, ValueLog.Admissible revision v) :
    ∃ reference values', prepareValue values revision value = .ok (reference, values') ∧
      values <+: values' ∧ Sound values' (revision, reference) ∧
      reference.map (ValueLog.valueOf values') = value := by
  cases value with
  | none =>
    refine ⟨none, values, rfl, prefix_rfl, ?_, rfl⟩
    rintro _ ⟨⟩
  | some v =>
    obtain ⟨happend, hread⟩ := ValueLog.read_append values (hadm v rfl)
    have hval : ValueLog.valueOf (values ++ ValueLog.record revision v)
        ⟨values.length, v.length, revision⟩ = v := by
      rw [ValueLog.valueOf, hread]
    refine ⟨some ⟨values.length, v.length, revision⟩, values ++ ValueLog.record revision v,
      ?_, prefix_append _ _, ?_, congrArg some hval⟩
    · rw [prepareValue, happend]
      rfl
    · rintro _ ⟨⟩
      exact ⟨ValueLog.readable_of_read hread, by rw [hval]; exact hadm v rfl⟩

theorem append_ok (h : WellFormed state values) {key : Bytes}
    (hadm : ∀ v ∈ value, ValueLog.Admissible revision v) (hkeys : ∀ k ∈ state.keys, p k)
    (hkey : p key) :
    ∃ state' values', append state values key revision value = .ok (state', values') ∧
      values <+: values' ∧ WellFormed state' values' ∧
      state'.coveredThrough = state.coveredThrough ∧ (∀ k ∈ state'.keys, p k) ∧
      ∀ j, historyOf state' values' j
        = if j = key then push revision (historyOf state values key) value
          else historyOf state values j := by
  obtain ⟨reference, values', hprep, hpre, hsound, hval⟩ := prepareValue_ok values hadm
  obtain ⟨hwf, hhist⟩ := h.mono hpre
  obtain ⟨hwf', hhist'⟩ := @historyOf_appendPrepared _ _ hwf key _ _ hsound
  refine ⟨_, values', by rw [append, hprep]; rfl, hpre, hwf', rfl,
    appendPrepared_keys hkeys hkey, fun j => ?_⟩
  rw [hhist', hval, hhist, hhist]

end Appending

/-! ## Collecting -/

theorem versions_collect (state : State) (oldest latest : Nat) (key : Bytes) :
    (collect state (some oldest) latest).2.versions key = keep oldest (state.versions key) := by
  show (lookup key (state.histories.map (fun h => (h.1, keep oldest h.2)))).getD [] = _
  rw [State.versions, lookup_mapValues (keep oldest)]
  cases lookup key state.histories with
  | none => rfl
  | some => rfl

/-- **COLLECT**: reads at or above the oldest snapshot see the same history. -/
theorem collect_some {values : Bytes} (h : WellFormed state values) (oldest latest : Nat) :
    WellFormed (collect state (some oldest) latest).2 values ∧
      ∀ key, historyOf (collect state (some oldest) latest).2 values key
        = (historyOf state values key).drop
            (keepFrom oldest (historyOf state values key)) := by
  refine ⟨⟨?_, fun key version hmem => ?_⟩, fun key => ?_⟩
  · show Sorted (state.histories.map (fun h => (h.1, keep oldest h.2)))
    exact pairwise_map.mpr h.sorted
  · rw [versions_collect] at hmem
    exact h.sound key version (mem_of_mem_drop hmem)
  · rw [historyOf, versions_collect, historyOf, readVersions, readVersions, keepFrom_mapValues]
    exact map_drop

theorem collect_none (state : State) (values : Bytes) (latest : Nat) :
    WellFormed (collect state none latest).2 values ∧
      ∀ key, historyOf (collect state none latest).2 values key = [] :=
  ⟨⟨sorted_nil, fun _ _ hmem => absurd hmem not_mem_nil⟩, fun _ => rfl⟩

/-! ## Compacting -/

/-- Moved versions read as before. -/
theorem compactVersions_ok {versions : List Version} (destination : Bytes)
    (hsound : ∀ version ∈ versions, Sound source version) :
    ∃ moved destination', compactVersions source destination versions = .ok (moved, destination') ∧
      destination <+: destination' ∧ (∀ version ∈ moved, Sound destination' version) ∧
      readVersions destination' moved = readVersions source versions := by
  induction versions generalizing destination with
  | nil => exact ⟨[], destination, rfl, prefix_rfl, forall_mem_nil _, rfl⟩
  | cons version rest ih =>
    have hrest := fun v hv => hsound v (mem_cons_of_mem _ hv)
    obtain ⟨revision, value⟩ := version
    cases value with
    | none =>
      obtain ⟨moved, destination', hrun, hpre, hmoved, hread⟩ := ih destination hrest
      refine ⟨(revision, none) :: moved, destination', by rw [compactVersions, hrun]; rfl, hpre,
        ?_, congrArg ((revision, none) :: ·) hread⟩
      rintro v hv
      rcases mem_cons.mp hv with rfl | hv
      · rintro _ ⟨⟩
      · exact hmoved v hv
    | some reference =>
      obtain ⟨hread, hadm⟩ := hsound _ mem_cons_self reference rfl
      -- the value is copied, and what is appended later leaves it alone
      obtain ⟨happend, hback⟩ := ValueLog.read_append destination hadm
      obtain ⟨moved, destination', hrun, hpre, hmoved, hrow⟩ := ih
        (destination ++ ValueLog.record revision (ValueLog.valueOf source reference)) hrest
      have hread' : ValueLog.read source reference
          = .ok (ValueLog.valueOf source reference) := hread
      obtain ⟨hkept, hval⟩ := valueOf_mono hpre (ValueLog.readable_of_read hback)
      have hval' : ValueLog.valueOf destination' ⟨destination.length,
          (ValueLog.valueOf source reference).length, revision⟩
            = ValueLog.valueOf source reference := by
        rw [hval, ValueLog.valueOf, hback]
      refine ⟨(revision, some ⟨destination.length,
          (ValueLog.valueOf source reference).length, revision⟩) :: moved, destination', ?_,
        (prefix_append _ _).trans hpre, ?_, ?_⟩
      · rw [compactVersions, hread', ok_bind, happend, ok_bind]
        dsimp only
        rw [hrun]
        rfl
      · rintro v hv
        rcases mem_cons.mp hv with rfl | hv
        · rintro _ ⟨⟩
          exact ⟨hkept, by rw [hval']; exact hadm⟩
        · exact hmoved v hv
      · show (revision, some (ValueLog.valueOf destination' _)) :: readVersions _ moved = _
        rw [hrow, hval']
        rfl

/-- The versions of two rows read the same. -/
def SameRow (source destination : Bytes) (versions moved : List Version) : Prop :=
  (∀ version ∈ moved, Sound destination version) ∧
    readVersions destination moved = readVersions source versions

theorem compactHistories_ok {histories : List (Bytes × List Version)} (destination : Bytes)
    (hsound : ∀ h ∈ histories, ∀ version ∈ h.2, Sound source version) :
    ∃ moved destination', compactHistories source destination histories
        = .ok (moved, destination') ∧ destination <+: destination' ∧
      Related (SameRow source destination') histories moved := by
  induction histories generalizing destination with
  | nil => exact ⟨[], destination, rfl, prefix_rfl, Forall₂.nil⟩
  | cons history rest ih =>
    rw [forall_mem_cons] at hsound
    obtain ⟨key, versions⟩ := history
    obtain ⟨row, middle, hrow, hpre, hmoved, hread⟩ :=
      compactVersions_ok destination hsound.1
    obtain ⟨moved, destination', hrun, hpre', hrel⟩ :=
      ih middle hsound.2
    refine ⟨(key, row) :: moved, destination', ?_, hpre.trans hpre',
      Forall₂.cons ⟨rfl, fun v hv => (hmoved v hv).mono hpre', ?_⟩ hrel⟩
    · rw [compactHistories, hrow, ok_bind]
      dsimp only
      rw [hrun]
      rfl
    · rw [readVersions_mono hpre' hmoved, hread]

/-- **COMPACT**: the moved state reads as before. -/
theorem compact_ok (h : WellFormed state source) (destination : Bytes) :
    ∃ state' destination', compact state source destination = .ok (state', destination') ∧
      WellFormed state' destination' ∧ state'.coveredThrough = state.coveredThrough ∧
      state'.keys = state.keys ∧ ∀ key, historyOf state' destination' key = historyOf state source key := by
  obtain ⟨moved, destination', hrun, _, hrel⟩ := compactHistories_ok destination
    (fun row hrow version hmem => h.sound row.1 version (by
      rw [State.versions, (lookup_eq_some h.sorted).mpr hrow]
      exact hmem))
  have hlook : ∀ key, (∀ version ∈ State.versions { state with histories := moved } key,
        Sound destination' version) ∧
      historyOf { state with histories := moved } destination' key
        = historyOf state source key := by
    intro key
    have hkey := hrel.lookup key
    rw [historyOf, historyOf, State.versions, State.versions]
    generalize lookup key state.histories = before at hkey
    generalize lookup key moved = after at hkey
    cases hkey with
    | none => exact ⟨forall_mem_nil _, rfl⟩
    | some hrow => exact hrow
  refine ⟨{ state with histories := moved }, destination', ?_, ⟨hrel.sorted h.sorted, ?_⟩, rfl,
    hrel.keys.symm, ?_⟩
  · rw [compact, hrun]
    rfl
  · exact fun key => (hlook key).1
  · exact fun key => (hlook key).2

end Mvcc

end Vyrn
