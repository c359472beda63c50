import Vyrn.Lib.Bytes

/-!
# Limits, reserved key namespaces and errors of the storage engine

The constants of the storage core and the errors its modelled functions return, with the
texts of the source. Engine-owned keys live under `internalPrefix`; a deleted key's
revision lives on its tombstone key, which is why a stored key may be longer than a key
a client may write.
-/

namespace Vyrn

/-- The errors the modelled functions return. -/
inductive Error where
  | emptyKey
  | reservedKey
  | keyTooLarge
  | valueTooLarge
  | invalidDocument (reason : String)
  | invalidRange
  | conflict
  | snapshotTooOld (requested oldest : Nat)
  | uniqueViolation (index value : Bytes)
  | indexExists
  | indexNotFound
  | invalidReplicatedRecord (reason : String)
  | corruptPage (pageId : Nat) (reason : String)
  | corruptValue (offset : Nat) (reason : String)
  | corruptManifest (reason : String)
  | corruptWal (segment offset : Nat) (reason : String)
  | corruptBackup (reason : String)
  | formatVersion (part : String) (found expected : Nat)
  | writeBackMismatch (reason : String)
  | poisoned
  | io (message : String)
  /-- Not an error of the code: it panics. -/
  | panicked (message : String)
  deriving DecidableEq, Repr

/-- The prefix of every key the engine keeps for itself: `\0vyrn:`. -/
def internalPrefix : Bytes := [0, 118, 121, 114, 110, 58]

/-- `\0vyrn:tombstone:`, followed by the deleted key. -/
def tombstonePrefix : Bytes :=
  internalPrefix ++ [116, 111, 109, 98, 115, 116, 111, 110, 101, 58]

/-- `\0vyrn:changelog:`, followed by the sequence of the change record. -/
def changeLogPrefix : Bytes :=
  internalPrefix ++ [99, 104, 97, 110, 103, 101, 108, 111, 103, 58]

/-- `\0vyrn:changelog-start`, the oldest retained position of the change log. -/
def changeLogStartKey : Bytes :=
  internalPrefix ++ [99, 104, 97, 110, 103, 101, 108, 111, 103, 45, 115, 116, 97, 114, 116]

/-- The longest key a client may write. -/
def maxKeySize : Nat := 64 * 1024

/-- The longest key a page may hold: a client's key behind the tombstone prefix. -/
def maxStoredKeySize : Nat := maxKeySize + tombstonePrefix.length

/-- The longest value. -/
def maxValueSize : Nat := 16 * 1024 * 1024

/-- The key that carries the revision of a deleted key. -/
def tombstoneKey (key : Bytes) : Bytes := tombstonePrefix ++ key

/-- Whether the engine keeps the key for itself. -/
def isInternal (key : Bytes) : Bool := internalPrefix.isPrefixOf key

@[simp] theorem maxStoredKeySize_eq : maxStoredKeySize = 65552 := rfl

theorem isInternal_tombstoneKey (key : Bytes) : isInternal (tombstoneKey key) = true := by
  rw [isInternal, List.isPrefixOf_iff_prefix]
  exact ⟨_, by rw [tombstoneKey, tombstonePrefix, List.append_assoc]⟩

theorem tombstoneKey_injective : Function.Injective tombstoneKey :=
  fun _ _ h => List.append_cancel_left h

/-! ## Running fallible code -/

section Except

variable {α β : Type} {x : Except Error α} {b : β}

@[simp] theorem ok_bind (a : α) (f : α → Except Error β) : (Except.ok a >>= f) = f a := rfl

@[simp] theorem error_bind (e : Error) (f : α → Except Error β) :
    (Except.error e >>= f) = .error e := rfl

@[simp] theorem pure_eq_ok (a : α) : (pure a : Except Error α) = .ok a := rfl

@[simp] theorem throw_eq_error (e : Error) : (throw e : Except Error α) = .error e := rfl

/-- A computation that succeeds did so step by step. -/
theorem bind_eq_ok {f : α → Except Error β} : (x >>= f) = .ok b ↔ ∃ a, x = .ok a ∧ f a = .ok b := by
  cases x with
  | error => exact ⟨fun h => absurd h (by simp), fun ⟨_, h, _⟩ => absurd h (by simp)⟩
  | ok a => exact ⟨fun h => ⟨a, rfl, h⟩, fun ⟨a', h, hf⟩ => by cases h; exact hf⟩

/-- A check that is passed. -/
theorem guard_ok {p : Prop} [Decidable p] {error : Error} {a : α} :
    (if p then .error error else x) = .ok a ↔ ¬ p ∧ x = .ok a := by
  by_cases h : p <;> simp [h]

/-- A walk of checks succeeds when each of them does. -/
theorem forM_eq_ok {check : α → Except Error Unit} {xs : List α} :
    xs.forM check = .ok () ↔ ∀ x ∈ xs, check x = .ok () := by
  induction xs with
  | nil => exact iff_of_true rfl (List.forall_mem_nil _)
  | cons x xs ih =>
    rw [List.forM_eq_forM, List.forM_cons, bind_eq_ok, List.forall_mem_cons, ← ih]
    exact ⟨fun ⟨_, h⟩ => h, fun h => ⟨(), h⟩⟩

theorem map_eq_ok {f : α → β} (h : x.map f = .ok b) : ∃ a, x = .ok a ∧ f a = b := by
  cases x with
  | error => cases h
  | ok a => exact ⟨a, rfl, Except.ok.inj h⟩

theorem toOption_eq_some {a : α} (h : x.toOption = some a) : x = .ok a := by
  cases x with
  | error => cases h
  | ok => exact congrArg Except.ok (Option.some.inj h)

end Except

end Vyrn
