import Vyrn.Engine.Counters
import Vyrn.Engine.Entries
import Vyrn.Server.Transaction

/-!
# Answering a batch of writes

The write worker joins the operations of the waiting requests into one batch, and the engine appends
index entries and a change record to it. The results come back as one list, which is cut to the
caller's operations twice and then dealt out to the requests. **`writes_answered`**: every request
gets the engine's results for its own operations, in order.
-/

namespace Vyrn

/-! ## The code -/

def WriteRequest.operations : WriteRequest → List BatchOperation
  | .operation single => [single]
  | .transaction check => check.operations
  | .document _ | .createIndex .. | .dropIndex _ => []

def WriteRequest.indexUpdates : WriteRequest → List IndexUpdate
  | .transaction check => check.indexUpdates
  | _ => []

/-- Applies the operations of all requests as one batch. -/
def Engine.applyRequests (engine : Engine) (requests : List WriteRequest) :
    Except Error (List BatchResult × Engine) :=
  let operations := requests.flatMap WriteRequest.operations
  let updates := requests.flatMap WriteRequest.indexUpdates
  if updates = [] then engine.writeBatch operations
  else engine.writeIndexedDeferred operations updates

/-- What a request's sender receives. -/
inductive Response where
  | operation (result : Except String BatchResult)
  | transaction (result : Except String (List BatchResult))
  | document (result : Except String Unit)
  | index (result : Except Error Unit)

def misroutedRequest : String :=
  "request reached the wrong stage of the write pipeline and was not applied; "
    ++ "this is a server routing bug — retrying is safe"

/-- The answer of a batch that failed. -/
def WriteRequest.refused (message : String) : WriteRequest → Response
  | .operation _ => .operation (.error message)
  | .document _ => .document (.error misroutedRequest)
  | .createIndex .. | .dropIndex _ => .index (.error .poisoned)
  | .transaction _ => .transaction (.error message)

/-- Deals out the results of a batch, each request taking its own from the front. -/
def dealResults : List WriteRequest → List BatchResult → List Response
  | [], _ => []
  | .operation _ :: rest, results =>
    .operation (results.head?.elim (.error "storage returned no write result") .ok)
      :: dealResults rest results.tail
  | .transaction check :: rest, results =>
    let own := results.take check.operations.length
    .transaction (if own.length = check.operations.length then .ok own
        else .error "storage returned too few transaction results")
      :: dealResults rest (results.drop check.operations.length)
  | request :: rest, results => request.refused misroutedRequest :: dealResults rest results

def respondWrites (requests : List WriteRequest) : Except String (List BatchResult) → List Response
  | .ok results => dealResults requests results
  | .error message => requests.map (WriteRequest.refused message)

/-! ## The answer that belongs to a request -/

/-- What a request is answered by an engine that holds `rows`. -/
def WriteRequest.answered (revision : Nat) (rows : Rows) :
    WriteRequest → Response
  | .operation single => .operation (.ok (single.answer rows))
  | .transaction check => .transaction (.ok (batchAnswers revision rows check.operations))
  | request => request.refused misroutedRequest

/-- The answers of the requests of a batch, each about what the requests before it left. -/
def responses (revision : Nat) : Rows → List WriteRequest → List Response
  | _, [] => []
  | rows, request :: rest =>
    request.answered revision rows
      :: responses revision (replayAll revision rows request.operations) rest

/-- **DEAL**: the answers to the operations of all requests reach the requests they belong to. -/
theorem dealResults_answers {revision : Nat} (requests : List WriteRequest) :
    ∀ rows, dealResults requests
        (batchAnswers revision rows (requests.flatMap WriteRequest.operations))
      = responses revision rows requests := by
  induction requests with
  | nil => exact fun _ => rfl
  | cons request rest ih =>
    intro rows
    rw [List.flatMap_cons, batchAnswers_append, responses, ← ih]
    cases request with
    | transaction check =>
      have hlen := @length_batchAnswers revision check.operations rows
      rw [WriteRequest.operations, dealResults, ← hlen, List.take_left, List.drop_left, if_pos rfl]
      rfl
    | operation | document | createIndex | dropIndex => rfl

/-! ## From the engine to the requests -/

section Commit

variable {ordered : Bool} {engine after : Engine} {levels : Nat} {rows : Rows}
  {operations : List BatchOperation} {updates : List IndexUpdate} {results : List BatchResult}

theorem applyBatch_answers (h : Serves ordered engine levels rows)
    (hcaller : ∀ operation ∈ operations, operation.FromCaller)
    (hrun : engine.applyBatch operations = .ok (results, after)) :
    results = batchAnswers (engine.lastLsn + 1) rows operations := by
  by_cases hne : operations = []
  · subst hne
    obtain ⟨_, _, hrun⟩ := bind_eq_ok.mp hrun
    cases hrun
    rfl
  · obtain ⟨combined, hacc, hreach⟩ := accepts_of_applyBatch h hcaller hne hrun
    exact (applyBatch_tally h hreach hacc hrun).1

/-- The answers about index entries are cut off again. -/
theorem writeIndexedDeferred_answers (h : Serves ordered engine levels rows)
    (hrun : engine.writeIndexedDeferred operations updates = .ok (results, after)) :
    results = batchAnswers (engine.lastLsn + 1) rows operations := by
  obtain ⟨⟨⟩, huser, hrun⟩ := bind_eq_ok.mp hrun
  obtain ⟨_, _, hrun⟩ := bind_eq_ok.mp hrun
  obtain ⟨entries, hentries, hrun⟩ := bind_eq_ok.mp hrun
  obtain ⟨⟨answers, _⟩, happly, hrun⟩ := bind_eq_ok.mp hrun
  cases hrun
  obtain rfl := indexOperations_eq hentries
  rw [applyBatch_answers h (fromCaller_updates fun operation hop =>
    fromCaller_of_user (forM_user.mp huser operation hop)) happly, take_batchAnswers]

/-- **ANSWERED**: whatever requests are joined into a batch that the engine accepts, each of them is
    answered with the engine's results for its own operations, and the results are used up. -/
theorem writes_answered (h : Serves ordered engine levels rows) {requests : List WriteRequest}
    (hrun : engine.applyRequests requests = .ok (results, after)) :
    results.length = (requests.map (fun request => request.operations.length)).sum ∧
      respondWrites requests (.ok results) = responses (engine.lastLsn + 1) rows requests := by
  have hanswers : results = batchAnswers (engine.lastLsn + 1) rows
      (requests.flatMap WriteRequest.operations) := by
    rw [Engine.applyRequests] at hrun
    split_ifs at hrun
    · obtain ⟨⟨⟩, huser, hrun⟩ := bind_eq_ok.mp hrun
      exact applyBatch_answers h
        (fun operation hop => fromCaller_of_user (forM_user.mp huser operation hop)) hrun
    · exact writeIndexedDeferred_answers h hrun
  subst hanswers
  refine ⟨?_, dealResults_answers requests rows⟩
  rw [length_batchAnswers, List.length_flatMap]

/-- A plain put, a transaction with an index update only, and one that deletes what the put
    wrote. -/
def threeWrites : List WriteRequest :=
  [.operation (.put [1] [7]), .transaction ⟨0, [], [], [], [], [⟨[9], [2], none, some [5]⟩]⟩,
    .transaction ⟨0, [], [], [], [.delete [1], .delete [1]], []⟩]

/-- A put, an empty transaction and one of two deletes. -/
theorem writes_answered_three :
    ∃ engine after, Serves true engine 0 [] ∧
      engine.applyRequests threeWrites = .ok ([.put, .delete true, .delete false], after) ∧
      respondWrites threeWrites (.ok [.put, .delete true, .delete false])
        = [.operation (.ok .put), .transaction (.ok []),
          .transaction (.ok [.delete true, .delete false])] := by
  have hserves : Serves true { Engine.atRest PageTree.fresh with
      changeLogEnabled := true, indexes := [([9], true)] } 0 [] :=
    serves_of_empty fresh_denotes nofun (fun _ _ => rfl) ValueLog.whole_nil (List.forall_mem_nil _)
  obtain ⟨⟨_, after⟩, hrun, rfl⟩ := map_eq_ok (show (Engine.applyRequests
    { Engine.atRest PageTree.fresh with changeLogEnabled := true, indexes := [([9], true)] }
    threeWrites).map Prod.fst = .ok [.put, .delete true, .delete false] by decide +kernel)
  exact ⟨_, after, hserves, hrun, (writes_answered hserves hrun).2⟩

end Commit

end Vyrn
