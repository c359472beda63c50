import Vyrn.Server.Transaction
import Vyrn.Server.Wire

/-!
# The gateway's retry

The HTTP gateway runs a request on a pooled connection, and once more on a fresh one when the first
ends with an error that means the connection was dead. What the server has done by then is part of
the exchange, not of the error. Main results: `pooled_once_iff`, `put_executed_twice`.
-/

namespace Vyrn.Gateway

/-- The errors of a client that a request can end with. -/
inductive ClientError where
  | timeout
  | unusableConnection
  | connectionClosed
  | protocol (message : String)
  | document (message : String)
  | server (code : ErrorCode) (message : String)
  | tls (message : String)
  | transport (message : String)
  deriving DecidableEq, Repr

inductive Sent where
  | done
  | failed (error : String)
  | expired
  deriving DecidableEq, Repr

inductive Received where
  | reply (version requestId : Nat) (message : Reply)
  | closed
  | failed (error : String)
  | expired
  deriving DecidableEq, Repr

/-- What becomes of one request: how sending it ends, whether the server executes it, and what is
    read for an answer. -/
structure Exchange where
  sent : Sent
  executed : Bool
  received : Received
  deriving DecidableEq, Repr

/-- A client with what its connection will do. One whose exchanges are used up is closed. -/
structure Client where
  unusable : Bool
  transactionActive : Bool
  nextRequestId : Nat
  exchanges : List Exchange
  deriving DecidableEq, Repr

/-- The answer to a request that was sent under `requestId`. -/
def Received.result (requestId : Nat) : Received → Except ClientError Reply
  | .expired => .error .timeout
  | .closed => .error .connectionClosed
  | .failed error => .error (.transport error)
  | .reply version id message =>
    if version ≠ Wire.protocolVersion then
      .error (.protocol "server used an unsupported protocol version")
    else if id ≠ requestId then .error (.protocol "response request ID did not match")
    else
      match message with
      | .error code text => .error (.server code text)
      | message => .ok message

def Exchange.result (requestId : Nat) (exchange : Exchange) : Except ClientError Reply :=
  match exchange.sent with
  | .expired => .error .timeout
  | .failed error => .error (.transport error)
  | .done => exchange.received.result requestId

/-- Sends a request; also says whether the server executed it. A timeout retires the client. -/
def Client.requestRaw (client : Client) : (Except ClientError Reply × Bool) × Client :=
  if client.unusable then ((.error .unusableConnection, false), client)
  else
    let exchange := client.exchanges.headD ⟨.done, false, .closed⟩
    let result := exchange.result client.nextRequestId
    ((result, exchange.executed),
      { client with
        unusable := decide (result = .error .timeout)
        nextRequestId := if client.nextRequestId + 1 < 2 ^ 64 then client.nextRequestId + 1 else 1
        exchanges := client.exchanges.tail })

/-- A request outside of a transaction; one that was left open is rolled back first. -/
def Client.request (client : Client) : Except ClientError Reply × Bool :=
  if client.transactionActive then
    match client.requestRaw with
    | ((.ok .rolledBack, _), client) => client.requestRaw.1
    | ((.ok _, _), _) => (.error (.protocol "unexpected response type"), false)
    | ((.error error, _), _) => (.error error, false)
  else client.requestRaw.1

inductive ApiError where
  | overloaded
  | backend (error : ClientError)
  deriving DecidableEq, Repr

def isDeadConnection : ClientError → Bool
  | .connectionClosed | .transport _ | .tls _ => true
  | _ => false

variable {T : Type}

/-- An operation on a client: a request, and what is made of its answer. -/
def Client.run (client : Client) (operation : Reply → Except ClientError T) :
    Except ClientError T × Bool :=
  (client.request.1.bind operation, client.request.2)

/-- Runs an operation on what `checkout` hands out, and again on what `connectApi` opens when that
    connection was dead; also says how often the server executed it. -/
def pooled (checkout connectApi : Except ApiError Client)
    (operation : Reply → Except ClientError T) : Except ApiError T × Nat :=
  match checkout with
  | .error error => (.error error, 0)
  | .ok client =>
    match client.run operation with
    | (.ok value, executed) => (.ok value, executed.toNat)
    | (.error error, executed) =>
      if isDeadConnection error then
        match connectApi with
        | .error refused => (.error refused, executed.toNat)
        | .ok fresh => ((fresh.run operation).1.mapError .backend,
            executed.toNat + (fresh.run operation).2.toNat)
      else (.error (.backend error), executed.toNat)

/-! ## How often a request is executed -/

/-- The points at which a connection fails: sending, or reading the answer, which is closed or
    fails. The last case is an operation that makes such an error of an answer. -/
def Exchange.Breaks (requestId : Nat) (operation : Reply → Except ClientError T)
    (exchange : Exchange) : Prop :=
  (∃ error, exchange.sent = .failed error) ∨ exchange.sent = .done ∧
    (exchange.received = .closed ∨ (∃ error, exchange.received = .failed error) ∨
      ∃ reply error, exchange.received.result requestId = .ok reply ∧
        operation reply = .error error ∧ isDeadConnection error = true)

/-- The client as the request itself finds it: behind the roll-back of a transaction left open. -/
def Client.ready? (client : Client) : Option Client :=
  if client.transactionActive then
    match client.requestRaw with
    | ((.ok .rolledBack, _), client) => some client
    | _ => none
  else some client

/-- The server executes the request, and then the connection fails. -/
def Client.Loses (client : Client) (operation : Reply → Except ClientError T) : Prop :=
  ∃ ready ∈ client.ready?, ready.unusable = false ∧ ∃ exchange ∈ ready.exchanges.head?,
    exchange.executed = true ∧ exchange.Breaks ready.nextRequestId operation

/-- An exchange breaks when its error is that of a dead connection. -/
theorem breaks_iff {requestId : Nat} {operation : Reply → Except ClientError T}
    {exchange : Exchange} : exchange.Breaks requestId operation ↔
      ∃ error, (exchange.result requestId).bind operation = .error error ∧
        isDeadConnection error = true := by
  obtain ⟨sent, executed, received⟩ := exchange
  cases sent with
  | failed error | expired => simp [Exchange.Breaks, Exchange.result, Except.bind, isDeadConnection]
  | done =>
    cases received with
    | closed | failed error | expired =>
      simp [Exchange.Breaks, Exchange.result, Received.result, Except.bind, isDeadConnection]
    | reply version id message =>
      -- an answer that is refused is no sign of a dead connection
      have hrefused : ∀ {error}, Received.result requestId (.reply version id message)
          = .error error → isDeadConnection error = false := by
        intro error h
        rw [Received.result.eq_def] at h
        dsimp only at h
        split_ifs at h
        · cases h
          rfl
        · cases h
          rfl
        · split at h
          · cases h
            rfl
          · cases h
      cases hresult : Received.result requestId (.reply version id message) with
      | error =>
        simp [Exchange.Breaks, Exchange.result, hresult, Except.bind, hrefused hresult]
      | ok => simp [Exchange.Breaks, Exchange.result, hresult, Except.bind]

/-- Then the run ends with the error of a dead connection behind an execution. -/
theorem loses_iff {client : Client} {operation : Reply → Except ClientError T} :
    client.Loses operation ↔ (client.run operation).2 = true ∧
      ∃ error, (client.run operation).1 = .error error ∧ isDeadConnection error = true := by
  have hraw : ∀ client : Client, (client.unusable = false ∧ ∃ exchange ∈ client.exchanges.head?,
      exchange.executed = true ∧ exchange.Breaks client.nextRequestId operation) ↔
        client.requestRaw.1.2 = true ∧ ∃ error,
          client.requestRaw.1.1.bind operation = .error error ∧ isDeadConnection error = true := by
    rintro ⟨unusable, active, requestId, exchanges⟩
    cases unusable <;> cases exchanges <;> simp [Client.requestRaw, breaks_iff]
  rw [Client.Loses, Client.run, Client.request, Client.ready?]
  cases client.transactionActive with
  | false => simpa using hraw client
  | true =>
    rcases client.requestRaw with ⟨⟨result, executed⟩, next⟩
    cases result with
    | error => simp
    | ok reply =>
      by_cases hrolled : reply = .rolledBack
      · rw [hrolled]
        simpa using hraw next
      · cases reply <;> simp at hrolled ⊢

/-- **AT MOST ONCE**: whatever the two connections do, the server executes a request at most once
    exactly when it is not lost behind an execution and executed again on the retry. -/
theorem pooled_once_iff (checkout connectApi : Except ApiError Client)
    (operation : Reply → Except ClientError T) :
    (pooled checkout connectApi operation).2 ≤ 1 ↔
      ¬ ∃ client fresh, checkout = .ok client ∧ connectApi = .ok fresh ∧
        client.Loses operation ∧ (fresh.run operation).2 = true := by
  cases checkout with
  | error => simp [pooled]
  | ok client =>
    rcases hrun : client.run operation with ⟨result, executed⟩
    cases result with
    | ok => cases executed <;> simp [pooled, loses_iff, hrun]
    | error error =>
      cases connectApi with
      | error =>
        by_cases hdead : isDeadConnection error <;> cases executed <;> simp [pooled, hrun, hdead]
      | ok fresh =>
        -- only here there is a second attempt, and only behind a dead connection
        by_cases hdead : isDeadConnection error <;> cases executed <;>
          cases hsecond : (fresh.run operation).2 <;>
          simp [pooled, loses_iff, hrun, hdead, hsecond]

/-- A put whose connection is closed between its execution and its answer is executed again. -/
theorem put_executed_twice :
    pooled (.ok ⟨false, false, 1, [⟨.done, true, .closed⟩]⟩)
      (.ok ⟨false, false, 1, [⟨.done, true, .reply Wire.protocolVersion 1 .written⟩]⟩)
      (fun reply =>
        if reply = .written then .ok () else .error (.protocol "unexpected response type"))
      = (.ok (), 2) := by
  rfl

end Vyrn.Gateway
