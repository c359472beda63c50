import Vyrn.Engine.Index

/-!
# Messages and open transactions

What a connection keeps of an open transaction: its snapshot, what it has read and what it would
write. `executeTransaction` serves a message from the engine at the snapshot (`Reads`) with the
transaction's own writes over it, and `commitTransaction` is what a commit hands to the write
worker. A server with replicas or failover is not sharded, so there is one engine.
-/

namespace Vyrn

open SortedMap

/-! ## Messages -/

/-- The requests of a client that a connection serves. -/
inductive Message where
  | get (key : Bytes)
  | multiGet (keys : List Bytes)
  | put (key value : Bytes)
  | delete (key : Bytes)
  | scan (start stop : Option Bytes) (limit : Nat)
  | subscribe (start : Bytes)
  | subscribeFrom (start : Bytes) (cursor : Option String)
  | subscribeCollection (collection : String)
  | subscribeCollectionFrom (collection : String) (cursor : Option String)
  | begin
  | commit
  | rollback
  | createIndex (name : Bytes) (unique : Bool)
  | dropIndex (name : Bytes)
  | indexUpdate (update : IndexUpdate)
  | indexLookup (index value : Bytes) (limit : Nat)
  | createCollection (collection : String) (indexes : List (String × Bool))
  | getDocument (collection id : String)
  | putDocument (collection id : String) (document : Bytes)
  | deleteDocument (collection id : String)
  | listDocuments (collection : String) (limit : Nat)
  | queryDocuments (collection field : String) (value : Bytes) (limit : Nat)
  | voteRequest (epoch durableLsn : Nat)
  deriving DecidableEq, Repr

inductive ErrorCode where
  | invalidRequest
  | conflict
  | storage
  deriving DecidableEq, Repr

/-- The answers a connection gives itself. A storage error is rendered with its own text. -/
inductive Reply where
  | value (value : Option Bytes)
  | written
  | deleted (existed : Bool)
  | rows (rows : List (Bytes × Bytes))
  | keys (keys : List Bytes)
  | indexUpdated
  | begun
  | committed
  | rolledBack
  | voteResponse (granted : Bool) (epoch : Nat)
  | error (code : ErrorCode) (message : String)
  | storageError (code : ErrorCode) (error : Error)
  deriving DecidableEq, Repr

def storageErrorMessage (error : Error) : Reply :=
  match error with
  | .conflict | .uniqueViolation .. => .storageError .conflict error
  | .emptyKey | .reservedKey | .keyTooLarge | .valueTooLarge | .invalidRange | .snapshotTooOld ..
  | .indexExists | .indexNotFound => .storageError .invalidRequest error
  | _ => .storageError .storage error

def maxScanLimit : Nat := 10000

def maxDocumentIndexes : Nat := 256

/-! ## Transactions -/

/-- An open transaction of a connection. -/
structure ConnectionTransaction where
  sequence : Nat
  readKeys : List (Bytes × Unit)
  readRanges : List (Option Bytes × Option Bytes)
  indexReads : List (Bytes × Bytes)
  writes : List (Bytes × Option Bytes)
  indexUpdates : List IndexUpdate
  deriving DecidableEq, Repr

def ConnectionTransaction.opened (sequence : Nat) : ConnectionTransaction :=
  ⟨sequence, [], [], [], [], []⟩

/-- What the engine answers at a snapshot. -/
structure Reads where
  getAt : Bytes → Except Error (Option Bytes)
  scanAt : Option Bytes → Option Bytes → Nat → Except Error (List (Bytes × Bytes))
  lookupIndexAt : Bytes → Bytes → Nat → Except Error (List Bytes)

/-- Whether a key is in a range, whose end is not. -/
def inRange (start stop : Option Bytes) (key : Bytes) : Bool :=
  start.all (fun start => decide (start ≤ key)) && stop.all (fun stop => decide (key < stop))

/-- A transaction's own index updates over the keys a lookup found. -/
def IndexUpdate.adjust (index value : Bytes) (keys : List (Bytes × Unit)) (update : IndexUpdate) :
    List (Bytes × Unit) :=
  if update.index ≠ index ∨ update.oldValue = update.newValue then keys
  else
    let keys := if update.oldValue = some value then erase update.primaryKey keys else keys
    if update.newValue = some value then put update.primaryKey () keys else keys

def executeTransaction (reads : Reads) (transaction : ConnectionTransaction) :
    Message → Reply × ConnectionTransaction
  | .get key =>
    let read := { transaction with readKeys := put key () transaction.readKeys }
    match List.lookup key transaction.writes with
    | some value => (.value value, read)
    | none =>
      match reads.getAt key with
      | .ok value => (.value value, read)
      | .error error => (storageErrorMessage error, read)
  | .put key value => (.written, { transaction with writes := put key (some value) transaction.writes })
  | .delete key =>
    match List.lookup key transaction.writes with
    | some value =>
      (.deleted value.isSome, { transaction with writes := put key none transaction.writes })
    | none =>
      match reads.getAt key with
      | .ok value =>
        (.deleted value.isSome, { transaction with writes := put key none transaction.writes })
      | .error error => (storageErrorMessage error, transaction)
  | .indexUpdate update =>
    (.indexUpdated, { transaction with indexUpdates := transaction.indexUpdates ++ [update] })
  | .indexLookup index value limit =>
    if limit = 0 ∨ maxScanLimit < limit then
      (.error .invalidRequest "index limit is out of range", transaction)
    else
      let read := { transaction with indexReads := transaction.indexReads ++ [(index, value)] }
      match reads.lookupIndexAt index value (limit + transaction.indexUpdates.length) with
      | .ok keys =>
        let keys := transaction.indexUpdates.foldl (IndexUpdate.adjust index value)
          (keys.foldl (fun keys key => put key () keys) [])
        (.keys ((keys.map Prod.fst).take limit), read)
      | .error error => (storageErrorMessage error, read)
  | .scan start stop limit =>
    if limit = 0 ∨ maxScanLimit < limit then
      (.error .invalidRequest "scan limit is out of range", transaction)
    else if (start.bind (fun start => stop.map (fun stop => decide (stop < start)))).getD false then
      (.error .invalidRequest "scan start must not exceed end", transaction)
    else
      let read := { transaction with readRanges := transaction.readRanges ++ [(start, stop)] }
      match reads.scanAt start stop (limit + transaction.writes.length) with
      | .ok rows =>
        let view := updateAll (rows.foldl (fun view row => put row.1 row.2 view) [])
          (transaction.writes.filter (fun write => inRange start stop write.1))
        (.rows (view.take limit), read)
      | .error error => (storageErrorMessage error, read)
  | _ => (.error .invalidRequest "message is not valid in a transaction", transaction)

/-! ## What reaches the write worker -/

inductive DocumentWrite where
  | createCollection (collection : String) (indexes : List (String × Bool))
  | put (collection id : String) (document : Bytes)
  | delete (collection id : String)
  deriving DecidableEq, Repr

/-- A transaction as the write worker checks it. -/
structure TransactionCheck where
  snapshotSequence : Nat
  readKeys : List Bytes
  readRanges : List (Option Bytes × Option Bytes)
  indexReads : List (Bytes × Bytes)
  operations : List BatchOperation
  indexUpdates : List IndexUpdate
  deriving DecidableEq, Repr

inductive WriteRequest where
  | operation (operation : BatchOperation)
  | document (request : DocumentWrite)
  | createIndex (name : Bytes) (unique : Bool)
  | dropIndex (name : Bytes)
  | transaction (check : TransactionCheck)
  deriving DecidableEq, Repr

def BatchOperation.ofWrite : Bytes × Option Bytes → BatchOperation
  | (key, some value) => .put key value
  | (key, none) => .delete key

/-- What a commit hands over; nothing when there is nothing to write. -/
def commitTransaction (transaction : ConnectionTransaction) : Option TransactionCheck :=
  if transaction.writes = [] ∧ transaction.indexUpdates = [] then none
  else some {
    snapshotSequence := transaction.sequence
    readKeys := transaction.readKeys.map Prod.fst
    readRanges := transaction.readRanges
    indexReads := transaction.indexReads
    operations := transaction.writes.map BatchOperation.ofWrite
    indexUpdates := transaction.indexUpdates }

end Vyrn
