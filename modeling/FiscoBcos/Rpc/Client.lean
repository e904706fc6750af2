import Mathlib

/-!
# Calls of the RPC client over HTTP

The calling goroutine of `CallContext` and `BatchCallContext` in
`rpc/client.go`, with `sendHTTP` and `sendBatchHTTP` of `rpc/http.go`, as a
transition system. The environment moves too: the context may become done at
any moment, and then a `select` in `requestOp.wait` that has a response ready
may take either case, as Go's `select` picks among the ready cases at random.

An HTTP client has no dispatch loop: `initClient` starts it only for the
other transports, and `Close` returns at once. So the inner `select` of
`requestOp.wait`, which hands the request to the dispatch loop through the
unbuffered `reqTimeout` or waits for `closing`, never proceeds, and a call
whose context is done can stay there forever (`CallContext_blocks_after_done`).
`sendBatchHTTP` pushes every decoded response into a channel of capacity
`len(b)` before anything reads it, and the loop of `BatchCallContext` looks
each response's id up among the requests' ids: a response of an unknown id
leaves `elem` nil (`BatchCallContext_unknown_id_panics`), surplus responses
block the push (`push_surplus_blocks`), and a repeated id answers one request
twice and another not at all (`BatchCallContext_repeated_id`).

The messages are what the JSON decoder gives; their text is not modelled.
-/

/-!
## Runs of a transition system

A step relation on states, the states that runs reach, and the rule for a
set of states that no step leaves: every state reachable from one of them is
in it. A goroutine that can never return is one whose reachable states all
lie in such a set and none of them returns.
-/

namespace Transition

variable {S : Type*} (step : S → S → Prop)

/-- The states that runs from a state reach. -/
abbrev Reachable : S → S → Prop := Relation.ReflTransGen step

/-- A set of states that no step leaves. -/
def Closed (P : S → Prop) : Prop := ∀ s s', P s → step s s' → P s'

variable {step}

/-- Every state reachable from a state of a closed set is in the set. -/
theorem Closed.reachable {P : S → Prop} (closed : Closed step P) {s s' : S} (start : P s)
    (run : Reachable step s s') : P s' := by
  induction run with
  | refl => exact start
  | tail _ last ih => exact closed _ _ ih last

end Transition

namespace FiscoBcos.Rpc

open Transition

/-- `jsonrpcMessage`, as far as the client reads a response. `Error` is the
text of its `*jsonError`. -/
structure jsonrpcMessage where
  ID : List UInt8
  Error : Option String
  Result : List UInt8

/-- `BatchElem`. `Result` is what `json.Unmarshal` stored into the caller's
value. -/
structure BatchElem (α : Type) where
  Method : String
  Args : α
  Result : Option (List UInt8) := none
  Error : Option String := none

/-- `ErrNoResult`. -/
def ErrNoResult : String := "no result in JSON-RPC response"

/-- The panic of a nil pointer dereference. -/
def nilDereference : String := "runtime error: invalid memory address or nil pointer dereference"

/-- The part of `Client` that the calls read: whether it is an HTTP client,
and its id counter. -/
structure Client where
  isHTTP : Bool
  idCounter : Nat

/-- The id of the `k`-th message after the counter: `nextID`'s `uint32`, in
decimal. -/
def Client.id (c : Client) (k : Nat) : List UInt8 :=
  (Nat.toDigits 10 ((c.idCounter + k + 1) % 2 ^ 32)).map fun d => d.toNat.toUInt8

/-- What the environment does: whether the context can be done (a
background context cannot), its `Err()`, what the server's answer decodes
to, and `json.Unmarshal` of a result into the caller's value. -/
structure Env where
  cancellable : Bool
  ctxErr : String
  callAnswer : Except String jsonrpcMessage
  batchAnswer : Except String (List jsonrpcMessage)
  unmarshal : List UInt8 → Option String

/-- Where the calling goroutine is. -/
inductive Phase where
  /-- `sendHTTP` of `CallContext`. -/
  | callSending
  /-- `op.wait` of `CallContext`. -/
  | callWaiting
  /-- The request of `sendBatchHTTP`. -/
  | batchSending
  /-- The loop `op.resp <- &respmsgs[i]` of `sendBatchHTTP`, with the
  responses still to push. -/
  | batchPushing (pending : List jsonrpcMessage)
  /-- The loop of `BatchCallContext`, after `n` responses. -/
  | batchWaiting (n : Nat)
  /-- The inner `select` of `op.wait`, once the context is done. -/
  | handingOff
  | returned (err : Option String)
  | panicked (msg : String)

/-- The state of a call: the goroutine's place, the context, the buffer of
`op.resp`, and the batch `b` with the ids of its messages. -/
structure State (α : Type) where
  phase : Phase
  ctxDone : Bool
  resp : List jsonrpcMessage
  elems : List (BatchElem α)
  ids : List (List UInt8)

variable {α : Type} (env : Env)

/-- What `CallContext` returns for a response. -/
def callResult (m : jsonrpcMessage) : Option String :=
  match m.Error with
  | some e => some e
  | none => if m.Result = [] then some ErrNoResult else env.unmarshal m.Result

/-- The element of a batch that a response answers. -/
def BatchElem.setFrom (elem : BatchElem α) (m : jsonrpcMessage) : BatchElem α :=
  match m.Error with
  | some e => { elem with Error := some e }
  | none =>
    if m.Result = [] then { elem with Error := some ErrNoResult }
    else { elem with Result := some m.Result, Error := env.unmarshal m.Result }

/-- One round of `BatchCallContext`'s loop once `op.wait` gave `m`: the
element of the first message of `m`'s id, and a nil `elem` when there is
none. -/
def deliver (s : State α) (n : Nat) (m : jsonrpcMessage) (rest : List jsonrpcMessage) : State α :=
  match s.ids.findIdx? (· = m.ID) with
  | none => { s with phase := .panicked nilDereference, resp := rest }
  | some i =>
    { s with phase := .batchWaiting (n + 1), resp := rest, elems := s.elems.modify i (·.setFrom env m) }

/-- `CallContext(ctx, result, method, args)`: `newMessage` fails when the
arguments do not marshal. -/
def CallContext (c : Client) (marshal : α → Option String) (args : α) : State α :=
  match marshal args with
  | some e => { phase := .returned (some e), ctxDone := false, resp := [], elems := [], ids := [] }
  | none => { phase := .callSending, ctxDone := false, resp := [], elems := [], ids := [c.id 0] }

/-- `BatchCallContext(ctx, b)`: the messages get consecutive ids. -/
def BatchCallContext (c : Client) (marshal : α → Option String) (b : List (BatchElem α)) : State α :=
  match b.findSome? fun elem => marshal elem.Args with
  | some e => { phase := .returned (some e), ctxDone := false, resp := [], elems := b, ids := [] }
  | none => { phase := .batchSending, ctxDone := false, resp := [], elems := b,
              ids := (List.range b.length).map c.id }

variable (c : Client)

/-- The steps of the calling goroutine and of the context. The requests are
those of an HTTP client; the other transports send through the dispatch loop,
whose side is not modelled. -/
inductive Step : State α → State α → Prop
  /-- The context becomes done. -/
  | cancel {s : State α} : env.cancellable = true → s.ctxDone = false → Step s { s with ctxDone := true }
  /-- `sendHTTP` decodes the answer and pushes it into the buffer of one. -/
  | callAnswered {s : State α} {m : jsonrpcMessage} : s.phase = .callSending → c.isHTTP = true →
      env.callAnswer = .ok m → Step s { s with phase := .callWaiting, resp := s.resp ++ [m] }
  | callFailed {s : State α} {e : String} : s.phase = .callSending → c.isHTTP = true →
      env.callAnswer = .error e → Step s { s with phase := .returned (some e) }
  /-- The HTTP request is cut off by the done context. -/
  | callCanceled {s : State α} : s.phase = .callSending → c.isHTTP = true → s.ctxDone = true →
      Step s { s with phase := .returned (some env.ctxErr) }
  /-- `op.wait` takes the response. -/
  | callReceived {s : State α} {m : jsonrpcMessage} {rest : List jsonrpcMessage} : s.phase = .callWaiting →
      s.resp = m :: rest → Step s { s with phase := .returned (callResult env m), resp := rest }
  /-- `op.wait` takes `ctx.Done()`. -/
  | callDone {s : State α} : s.phase = .callWaiting → s.ctxDone = true → Step s { s with phase := .handingOff }
  | batchAnswered {s : State α} {ms : List jsonrpcMessage} : s.phase = .batchSending → c.isHTTP = true →
      env.batchAnswer = .ok ms → Step s { s with phase := .batchPushing ms }
  | batchFailed {s : State α} {e : String} : s.phase = .batchSending → c.isHTTP = true →
      env.batchAnswer = .error e → Step s { s with phase := .returned (some e) }
  | batchCanceled {s : State α} : s.phase = .batchSending → c.isHTTP = true → s.ctxDone = true →
      Step s { s with phase := .returned (some env.ctxErr) }
  /-- A push into the buffer of capacity `len(b)`, which blocks when it is full. -/
  | pushed {s : State α} {m : jsonrpcMessage} {rest : List jsonrpcMessage} : s.phase = .batchPushing (m :: rest) →
      s.resp.length < s.elems.length → Step s { s with phase := .batchPushing rest, resp := s.resp ++ [m] }
  | pushedAll {s : State α} : s.phase = .batchPushing [] → Step s { s with phase := .batchWaiting 0 }
  /-- `op.wait` in the loop takes a response. -/
  | batchReceived {s : State α} {n : Nat} {m : jsonrpcMessage} {rest : List jsonrpcMessage} :
      s.phase = .batchWaiting n → n < s.elems.length → s.resp = m :: rest → Step s (deliver env s n m rest)
  | batchFinished {s : State α} {n : Nat} : s.phase = .batchWaiting n → s.elems.length ≤ n →
      Step s { s with phase := .returned none }
  /-- `op.wait` in the loop takes `ctx.Done()`. -/
  | batchDone {s : State α} {n : Nat} : s.phase = .batchWaiting n → n < s.elems.length → s.ctxDone = true →
      Step s { s with phase := .handingOff }
  /-- The dispatch loop of a client that has one takes the request, or has
  closed `closing`. -/
  | handedOff {s : State α} : s.phase = .handingOff → c.isHTTP = false →
      Step s { s with phase := .returned (some env.ctxErr) }

variable {env c}

/-! ## The inner select of an HTTP client -/

/-- An HTTP client never leaves the inner `select` of `op.wait`: only the
context moves. -/
theorem handingOff_closed (http : c.isHTTP = true) :
    Closed (Step env c (α := α)) fun s => s.phase = .handingOff := by
  intro s s' hs step
  cases step with
  | cancel => exact hs
  | handedOff _ notHTTP => rw [http] at notHTTP; cases notHTTP
  | _ => simp_all

/-- A call of an HTTP client whose answer has come can block forever once
its context is done: `op.wait` takes `ctx.Done()` over the ready response,
and nothing receives from `reqTimeout` or closes `closing`. -/
theorem CallContext_blocks_after_done {marshal : α → Option String} {args : α} {m : jsonrpcMessage}
    (http : c.isHTTP = true) (cancellable : env.cancellable = true) (marshals : marshal args = none)
    (answers : env.callAnswer = .ok m) :
    ∃ s, Reachable (Step env c) (CallContext c marshal args) s ∧ s.ctxDone = true ∧
      ∀ s', Reachable (Step env c) s s' → ∀ err, s'.phase ≠ .returned err := by
  have start : CallContext c marshal args =
      { phase := .callSending, ctxDone := false, resp := [], elems := [], ids := [c.id 0] } := by
    rw [CallContext, marshals]
  -- the answer is pushed, then the context is done, then `op.wait` takes `ctx.Done()`
  have run : Reachable (Step env c) (CallContext c marshal args)
      { phase := .handingOff, ctxDone := true, resp := [m], elems := [], ids := [c.id 0] } := by
    rw [start]
    refine .tail (.tail (.single (Step.callAnswered rfl http answers)) (Step.cancel cancellable rfl)) ?_
    exact Step.callDone rfl rfl
  refine ⟨_, run, rfl, fun s' later err => ?_⟩
  have stays := (handingOff_closed http).reachable rfl later
  rw [stays]
  exact nofun

/-- An HTTP client of counter `0` whose context is canceled after the server
answered `1`. -/
theorem CallContext_blocks_after_done_canceled :
    ∃ s, Reachable
        (Step
          { cancellable := true, ctxErr := "context canceled",
            callAnswer := .ok { ID := [49], Error := none, Result := [49] },
            batchAnswer := .ok [], unmarshal := fun _ => none }
          { isHTTP := true, idCounter := 0 })
        (CallContext { isHTTP := true, idCounter := 0 } (fun _ : Unit => none) ()) s ∧
      s.ctxDone = true ∧
      ∀ s', Reachable
          (Step
            { cancellable := true, ctxErr := "context canceled",
              callAnswer := .ok { ID := [49], Error := none, Result := [49] },
              batchAnswer := .ok [], unmarshal := fun _ => none }
            { isHTTP := true, idCounter := 0 }) s s' →
        ∀ err, s'.phase ≠ .returned err :=
  CallContext_blocks_after_done rfl rfl rfl rfl

/-! ## The batch loop -/

/-- `BatchCallContext` of arguments that all marshal starts the request. -/
theorem BatchCallContext_of_marshals {marshal : α → Option String} {b : List (BatchElem α)}
    (marshals : ∀ elem ∈ b, marshal elem.Args = none) :
    BatchCallContext c marshal b =
      { phase := .batchSending, ctxDone := false, resp := [], elems := b, ids := (List.range b.length).map c.id } := by
  rw [BatchCallContext, List.findSome?_eq_none_iff.mpr marshals]

/-- `sendBatchHTTP` pushes responses while the buffer of `len(b)` has room. -/
theorem push_front {s : State α} {front back : List jsonrpcMessage}
    (pushing : s.phase = .batchPushing (front ++ back)) (room : s.resp.length + front.length ≤ s.elems.length) :
    Reachable (Step env c) s { s with phase := .batchPushing back, resp := s.resp ++ front } := by
  induction front generalizing s with
  | nil => rw [← List.nil_append back, ← pushing, List.append_nil]
  | cons m rest ih =>
    have first := @Step.pushed _ env c _ _ _ pushing (by simp at room; omega)
    have later := ih (s := { s with phase := .batchPushing (rest ++ back), resp := s.resp ++ [m] }) rfl
      (by simp at room ⊢; omega)
    simpa using Relation.ReflTransGen.head first later

/-- With all its arguments marshalled and an answer of at most `len(b)`
messages, `BatchCallContext` of an HTTP client reaches its loop with every
message in the buffer. -/
theorem BatchCallContext_reaches_loop {marshal : α → Option String} {b : List (BatchElem α)}
    {ms : List jsonrpcMessage} (http : c.isHTTP = true) (marshals : ∀ elem ∈ b, marshal elem.Args = none)
    (answers : env.batchAnswer = .ok ms) (fits : ms.length ≤ b.length) :
    Reachable (Step env c) (BatchCallContext c marshal b)
      { phase := .batchWaiting 0, ctxDone := false, resp := ms, elems := b, ids := (List.range b.length).map c.id } := by
  rw [BatchCallContext_of_marshals marshals]
  have sent := @Step.batchAnswered _ env c
    { phase := .batchSending, ctxDone := false, resp := [], elems := b, ids := (List.range b.length).map c.id } _
    rfl http answers
  have pushedAll := @push_front _ env c
    { phase := .batchPushing ms, ctxDone := false, resp := [], elems := b, ids := (List.range b.length).map c.id }
    ms [] (by rw [List.append_nil]) (by simpa using fits)
  exact (Relation.ReflTransGen.head sent pushedAll).tail (Step.pushedAll rfl)

/-- A batch of an HTTP client panics when the first response has an id of no
request: `elem` stays nil and `elem.Error` dereferences it. -/
theorem BatchCallContext_unknown_id_panics {marshal : α → Option String} {b : List (BatchElem α)}
    {m : jsonrpcMessage} {rest : List jsonrpcMessage} (http : c.isHTTP = true)
    (marshals : ∀ elem ∈ b, marshal elem.Args = none) (answers : env.batchAnswer = .ok (m :: rest))
    (fits : rest.length < b.length) (unknown : ∀ i < b.length, c.id i ≠ m.ID) :
    ∃ s, Reachable (Step env c) (BatchCallContext c marshal b) s ∧ s.phase = .panicked nilDereference := by
  have loop := BatchCallContext_reaches_loop http marshals answers (by rw [List.length_cons]; omega)
  have none : ((List.range b.length).map c.id).findIdx? (· = m.ID) = none := by
    rw [List.findIdx?_eq_none_iff]
    intro id mem
    obtain ⟨i, lt, rfl⟩ := List.mem_map.mp mem
    simpa using unknown i (List.mem_range.mp lt)
  have received := @Step.batchReceived _ env c
    { phase := .batchWaiting 0, ctxDone := false, resp := m :: rest, elems := b, ids := (List.range b.length).map c.id }
    _ _ _ rfl (show 0 < b.length by omega) rfl
  refine ⟨_, loop.tail received, ?_⟩
  simp [deliver, none]

/-- A batch of one request, id `1`, answered by a message of id `7`. -/
theorem BatchCallContext_unknown_id_panics_seven :
    ∃ s, Reachable
        (Step
          { cancellable := false, ctxErr := "", callAnswer := .error "",
            batchAnswer := .ok [{ ID := [55], Error := none, Result := [49] }],
            unmarshal := fun _ => none }
          { isHTTP := true, idCounter := 0 })
        (BatchCallContext { isHTTP := true, idCounter := 0 } (fun _ : Unit => none)
          [{ Method := "eth_blockNumber", Args := () }]) s ∧
      s.phase = .panicked nilDereference :=
  BatchCallContext_unknown_id_panics rfl (fun _ _ => rfl) rfl (by decide) (by decide)

/-- When the answer has more messages than the batch, `sendBatchHTTP` blocks
for ever on the push of the first surplus message: the buffer is full and
nothing reads it, whatever the context does. -/
theorem push_surplus_blocks {marshal : α → Option String} {b : List (BatchElem α)} {ms : List jsonrpcMessage}
    (http : c.isHTTP = true) (marshals : ∀ elem ∈ b, marshal elem.Args = none)
    (answers : env.batchAnswer = .ok ms) (surplus : b.length < ms.length) :
    ∃ s, Reachable (Step env c) (BatchCallContext c marshal b) s ∧
      ∀ s', Reachable (Step env c) s s' → s'.phase = .batchPushing (ms.drop b.length) := by
  rw [BatchCallContext_of_marshals marshals]
  let sending : State α :=
    { phase := .batchSending, ctxDone := false, resp := [], elems := b, ids := (List.range b.length).map c.id }
  have sent := @Step.batchAnswered _ env c sending _ rfl http answers
  have full := @push_front _ env c { sending with phase := .batchPushing ms } (ms.take b.length) (ms.drop b.length)
    (by simp) (by simp only [sending, List.length_nil, List.length_take]; omega)
  refine ⟨_, Relation.ReflTransGen.head sent full, fun s' later => ?_⟩
  -- a full buffer: no push, and the context's step changes nothing else
  have closed : Closed (Step env c) fun t : State α =>
      t.phase = .batchPushing (ms.drop b.length) ∧ t.resp.length = t.elems.length := by
    intro t t' ⟨phase, length⟩ step
    cases step with
    | cancel => exact ⟨phase, length⟩
    | pushed _ room => omega
    | pushedAll done =>
      rw [phase, Phase.batchPushing.injEq, List.drop_eq_nil_iff] at done
      omega
    | _ => simp_all
  have full_start : (ms.take b.length).length = b.length := by
    simp only [List.length_take]
    omega
  exact (closed.reachable ⟨rfl, by simpa [sending] using full_start⟩ later).1

/-- A batch of one request answered by two messages: the push of the second
blocks. -/
theorem push_surplus_blocks_two :
    ∃ s, Reachable
        (Step
          { cancellable := false, ctxErr := "", callAnswer := .error "",
            batchAnswer := .ok [{ ID := [49], Error := none, Result := [49] }, { ID := [50], Error := none, Result := [50] }],
            unmarshal := fun _ => none }
          { isHTTP := true, idCounter := 0 })
        (BatchCallContext { isHTTP := true, idCounter := 0 } (fun _ : Unit => none)
          [{ Method := "eth_blockNumber", Args := () }]) s ∧
      ∀ s', Reachable
          (Step
            { cancellable := false, ctxErr := "", callAnswer := .error "",
              batchAnswer := .ok [{ ID := [49], Error := none, Result := [49] }, { ID := [50], Error := none, Result := [50] }],
              unmarshal := fun _ => none }
            { isHTTP := true, idCounter := 0 }) s s' →
        s'.phase = .batchPushing [{ ID := [50], Error := none, Result := [50] }] :=
  @push_surplus_blocks Unit _ _ _ [{ Method := "eth_blockNumber", Args := () }]
    [{ ID := [49], Error := none, Result := [49] }, { ID := [50], Error := none, Result := [50] }]
    rfl (fun _ _ => rfl) rfl (by decide)

/-- The elements after the loop has delivered `ms`, each to the first
request of its id. -/
def delivered (env : Env) (ids : List (List UInt8)) (elems : List (BatchElem α)) (ms : List jsonrpcMessage) :
    List (BatchElem α) :=
  ms.foldl (fun es m =>
    match ids.findIdx? (· = m.ID) with
    | some i => es.modify i (·.setFrom env m)
    | none => es) elems

/-- Every message of `ms` has the id of a request. -/
def KnownIds (ids : List (List UInt8)) (ms : List jsonrpcMessage) : Prop :=
  ∀ m ∈ ms, (ids.findIdx? (· = m.ID)).isSome

theorem KnownIds.tail {ids : List (List UInt8)} {m : jsonrpcMessage} {ms : List jsonrpcMessage}
    (known : KnownIds ids (m :: ms)) : KnownIds ids ms :=
  fun m' mem => known m' (List.mem_cons_of_mem _ mem)

/-- The requests' ids of a batch: a message is known when it has the id of
one of the first `n` messages. -/
theorem isSome_findIdx?_ids {n : Nat} {id : List UInt8} :
    (((List.range n).map c.id).findIdx? (· = id)).isSome ↔ ∃ i < n, c.id i = id := by
  simp [List.findIdx?_isSome]

/-- A round of the loop with a message of a known id. -/
theorem deliver_of_findIdx? {s : State α} {n i : Nat} {m : jsonrpcMessage} {rest : List jsonrpcMessage}
    (index : s.ids.findIdx? (· = m.ID) = some i) :
    deliver env s n m rest =
      { s with phase := .batchWaiting (n + 1), resp := rest, elems := s.elems.modify i (·.setFrom env m) } := by
  rw [deliver, index]

/-- The loop of `BatchCallContext` over a buffer of exactly the responses
still to come, each of a known id, returns `nil` with every response
delivered. -/
theorem loop_known : ∀ (ms : List jsonrpcMessage) {s : State α} {n : Nat}, s.phase = .batchWaiting n →
    s.resp = ms → n + ms.length = s.elems.length → KnownIds s.ids ms →
    Reachable (Step env c) s
      { s with phase := .returned none, resp := [], elems := delivered env s.ids s.elems ms }
  | [], s, n, waiting, empty, count, _ => by
    have finished := @Step.batchFinished _ env c _ _ waiting (by simp at count; omega)
    simpa [delivered, empty] using Relation.ReflTransGen.single finished
  | m :: rest, s, n, waiting, buffer, count, known => by
    obtain ⟨i, index⟩ := Option.isSome_iff_exists.mp (known m (List.mem_cons_self ..))
    have received := @Step.batchReceived _ env c _ _ _ _ waiting (by simp at count; omega) buffer
    rw [deliver_of_findIdx? index] at received
    have later := loop_known rest
      (s := { s with phase := .batchWaiting (n + 1), resp := rest, elems := s.elems.modify i (·.setFrom env m) })
      rfl rfl (by simp at count ⊢; omega) known.tail
    have step : delivered env s.ids (s.elems.modify i (·.setFrom env m)) rest =
        delivered env s.ids s.elems (m :: rest) := by
      simp [delivered, index]
    simpa [step] using Relation.ReflTransGen.head received later

/-- A request that no response answers keeps its element. -/
theorem getElem?_delivered_of_unanswered {ids : List (List UInt8)} {j : Nat} (ms : List jsonrpcMessage)
    (es : List (BatchElem α)) (unanswered : ∀ m ∈ ms, ids.findIdx? (· = m.ID) ≠ some j) :
    (delivered env ids es ms)[j]? = es[j]? := by
  induction ms generalizing es with
  | nil => rfl
  | cons m rest ih =>
    have rest_unanswered := fun m' mem => unanswered m' (List.mem_cons_of_mem _ mem)
    simp only [delivered, List.foldl_cons] at ih ⊢
    cases index : ids.findIdx? (· = m.ID) with
    | none => exact ih es rest_unanswered
    | some i =>
      have ne : i ≠ j := fun same => unanswered m (List.mem_cons_self ..) (same ▸ index)
      rw [ih _ rest_unanswered]
      exact List.getElem?_modify_ne _ _ ne

/-- With an answer of one message per request, each of a known id, the
batch of an HTTP client returns `nil` with the answer delivered. -/
theorem BatchCallContext_returns {marshal : α → Option String} {b : List (BatchElem α)}
    {ms : List jsonrpcMessage} (http : c.isHTTP = true) (marshals : ∀ elem ∈ b, marshal elem.Args = none)
    (answers : env.batchAnswer = .ok ms) (count : ms.length = b.length)
    (known : ∀ m ∈ ms, ∃ i < b.length, c.id i = m.ID) :
    Reachable (Step env c) (BatchCallContext c marshal b)
      { phase := .returned none, ctxDone := false, resp := [], ids := (List.range b.length).map c.id,
        elems := delivered env ((List.range b.length).map c.id) b ms } := by
  have loop := BatchCallContext_reaches_loop http marshals answers (Nat.le_of_eq count)
  exact loop.trans (loop_known ms rfl rfl (by simp [count]) fun m mem => isSome_findIdx?_ids.mpr (known m mem))

/-- The first request's id is found at index `0`. -/
theorem findIdx?_ids_zero {n : Nat} {id : List UInt8} (pos : 0 < n) (first : id = c.id 0) :
    ((List.range n).map c.id).findIdx? (· = id) = some 0 := by
  obtain ⟨k, rfl⟩ := Nat.exists_eq_add_of_lt pos
  rw [List.range_succ_eq_map, List.map_cons, List.findIdx?_cons]
  simp [first]

/-- An answer that repeats the id of the first request for every message:
the batch returns `nil`, the first request is answered over and over, and
every other element is left as the caller passed it, with no error. -/
theorem BatchCallContext_repeated_id {marshal : α → Option String} {b : List (BatchElem α)}
    {m : jsonrpcMessage} (http : c.isHTTP = true) (marshals : ∀ elem ∈ b, marshal elem.Args = none)
    (answers : env.batchAnswer = .ok (List.replicate b.length m)) (first : m.ID = c.id 0) :
    ∃ s, Reachable (Step env c) (BatchCallContext c marshal b) s ∧ s.phase = .returned none ∧
      ∀ j, 0 < j → s.elems[j]? = b[j]? := by
  have index {m' : jsonrpcMessage} (mem : m' ∈ List.replicate b.length m) :
      ((List.range b.length).map c.id).findIdx? (· = m'.ID) = some 0 := by
    obtain ⟨pos, rfl⟩ := List.mem_replicate.mp mem
    exact findIdx?_ids_zero (Nat.pos_of_ne_zero pos) first
  have known : ∀ m' ∈ List.replicate b.length m, ∃ i < b.length, c.id i = m'.ID :=
    fun m' mem => isSome_findIdx?_ids.mp (by rw [index mem]; rfl)
  refine ⟨_, BatchCallContext_returns http marshals answers List.length_replicate known, rfl, fun j pos => ?_⟩
  refine getElem?_delivered_of_unanswered _ _ fun m' mem => ?_
  rw [index mem]
  simpa using Nat.ne_of_lt pos

/-- A batch of two requests answered twice under the first one's id. -/
theorem BatchCallContext_repeated_id_two :
    ∃ s, Reachable
        (Step
          { cancellable := false, ctxErr := "", callAnswer := .error "",
            batchAnswer := .ok (List.replicate 2 { ID := [49], Error := none, Result := [49] }),
            unmarshal := fun _ => none }
          { isHTTP := true, idCounter := 0 })
        (BatchCallContext { isHTTP := true, idCounter := 0 } (fun _ : Unit => none)
          [{ Method := "eth_blockNumber", Args := () }, { Method := "eth_chainId", Args := () }]) s ∧
      s.phase = .returned none ∧
      ∀ j, 0 < j → s.elems[j]? =
        ([{ Method := "eth_blockNumber", Args := () }, { Method := "eth_chainId", Args := () }] : List (BatchElem Unit))[j]? :=
  BatchCallContext_repeated_id rfl (fun _ _ => rfl) rfl rfl

/-! ## Every run of a batch -/

/-- What keeps a batch from panicking: every message that the answer has,
that is still to push, or that is in the buffer has the id of a request, and
the goroutine is in none of the call's phases. -/
def BatchSafe (env : Env) (t : State α) : Prop :=
  (t.phase = .batchSending → ∀ ms, env.batchAnswer = .ok ms → KnownIds t.ids ms) ∧
  (∀ pending, t.phase = .batchPushing pending → KnownIds t.ids pending) ∧
  KnownIds t.ids t.resp ∧ t.phase ≠ .callSending ∧ ∀ msg, t.phase ≠ .panicked msg

/-- No step leaves `BatchSafe`. -/
theorem batchSafe_closed : Closed (Step env c (α := α)) (BatchSafe env) := by
  intro t t' ⟨sending, pushing, buffered, notCall, notPanicked⟩ step
  cases step with
  | cancel => exact ⟨sending, pushing, buffered, notCall, notPanicked⟩
  | callAnswered phase => exact absurd phase notCall
  | callReceived _ buffer =>
    rw [buffer] at buffered
    exact ⟨nofun, nofun, buffered.tail, nofun, nofun⟩
  | batchAnswered phase _ answers =>
    refine ⟨nofun, fun _ same => ?_, buffered, nofun, nofun⟩
    cases same
    exact sending phase _ answers
  | pushed phase =>
    have known := pushing _ phase
    refine ⟨nofun, fun _ same => ?_, fun m' mem => ?_, nofun, nofun⟩
    · cases same
      exact known.tail
    · rcases List.mem_append.mp mem with old | new
      · exact buffered m' old
      · exact known m' (by simp_all)
  | batchReceived phase _ buffer =>
    rw [buffer] at buffered
    obtain ⟨i, index⟩ := Option.isSome_iff_exists.mp (buffered _ (List.mem_cons_self ..))
    rw [deliver_of_findIdx? index]
    exact ⟨nofun, nofun, buffered.tail, nofun, nofun⟩
  | _ => exact ⟨nofun, nofun, by simpa, nofun, nofun⟩

/-- A batch whose every answer has only ids of its requests never panics,
in any run and whatever the context does. -/
theorem BatchCallContext_never_panics {marshal : α → Option String} {b : List (BatchElem α)}
    (answered : ∀ ms, env.batchAnswer = .ok ms → ∀ m ∈ ms, ∃ i < b.length, c.id i = m.ID) :
    ∀ s, Reachable (Step env c) (BatchCallContext c marshal b) s → ∀ msg, s.phase ≠ .panicked msg := by
  have start : BatchSafe env (BatchCallContext c marshal b) := by
    unfold BatchCallContext
    split
    · exact ⟨by simp, by simp, by simp [KnownIds], by simp, by simp⟩
    · refine ⟨fun _ ms answers m mem => ?_, by simp, by simp [KnownIds], by simp, by simp⟩
      exact isSome_findIdx?_ids.mpr (answered ms answers m mem)
  exact fun s run => (batchSafe_closed.reachable start run).2.2.2.2

/-- A batch of one request answered under its id. -/
theorem BatchCallContext_never_panics_one :
    (BatchCallContext { isHTTP := true, idCounter := 0 } (fun _ : Unit => none)
      [{ Method := "eth_blockNumber", Args := () }]).phase ≠ .panicked nilDereference :=
  @BatchCallContext_never_panics Unit
    { cancellable := false, ctxErr := "", callAnswer := .error "",
      batchAnswer := .ok [{ ID := [49], Error := none, Result := [49] }],
      unmarshal := fun _ => none }
    { isHTTP := true, idCounter := 0 } (fun _ => none) [{ Method := "eth_blockNumber", Args := () }]
    (fun ms answers m mem => by
      cases answers
      rw [List.mem_singleton] at mem
      subst mem
      exact ⟨0, by decide, rfl⟩)
    _ .refl nilDereference

/-- An answer of fewer messages than requests, all of known ids: once the
loop has taken them it waits for a response that never comes, and when the
context is done it blocks in the inner `select`. No run from there returns. -/
theorem BatchCallContext_short_answer_blocks {marshal : α → Option String} {b : List (BatchElem α)}
    {ms : List jsonrpcMessage} (http : c.isHTTP = true) (marshals : ∀ elem ∈ b, marshal elem.Args = none)
    (answers : env.batchAnswer = .ok ms) (short : ms.length < b.length)
    (known : ∀ m ∈ ms, ∃ i < b.length, c.id i = m.ID) :
    ∃ s, Reachable (Step env c) (BatchCallContext c marshal b) s ∧
      ∀ s', Reachable (Step env c) s s' → ∀ err, s'.phase ≠ .returned err := by
  have loop := BatchCallContext_reaches_loop http marshals answers (Nat.le_of_lt short)
  -- the loop can never count `len(b)` responses, and only the context moves once it is done
  have closed : Closed (Step env c) fun t : State α =>
      (∃ n, t.phase = .batchWaiting n ∧ n + t.resp.length < t.elems.length ∧ KnownIds t.ids t.resp) ∨
        t.phase = .handingOff := by
    rintro t t' (⟨n, waiting, room, buffered⟩ | handingOff) step
    · cases step with
      | cancel => exact .inl ⟨n, waiting, room, buffered⟩
      | batchReceived phase _ buffer =>
        rw [waiting, Phase.batchWaiting.injEq] at phase
        subst phase
        rw [buffer] at buffered room
        obtain ⟨i, index⟩ := Option.isSome_iff_exists.mp (buffered _ (List.mem_cons_self ..))
        rw [deliver_of_findIdx? index]
        exact .inl ⟨n + 1, rfl, by simp at room ⊢; omega, buffered.tail⟩
      | batchFinished phase finished =>
        rw [waiting, Phase.batchWaiting.injEq] at phase
        omega
      | batchDone => exact .inr rfl
      | _ => simp_all
    · exact .inr ((handingOff_closed http) t t' handingOff step)
  refine ⟨_, loop, fun s' later err => ?_⟩
  have buffered : KnownIds ((List.range b.length).map c.id) ms :=
    fun m mem => isSome_findIdx?_ids.mpr (known m mem)
  rcases closed.reachable (.inl ⟨0, rfl, by simpa using short, buffered⟩) later with ⟨n, waiting, -⟩ | handingOff
  · rw [waiting]
    exact nofun
  · rw [handingOff]
    exact nofun

/-- A batch of two requests answered only for the first. -/
theorem BatchCallContext_short_answer_blocks_one :
    ∃ s, Reachable
        (Step
          { cancellable := false, ctxErr := "", callAnswer := .error "",
            batchAnswer := .ok [{ ID := [49], Error := none, Result := [49] }],
            unmarshal := fun _ => none }
          { isHTTP := true, idCounter := 0 })
        (BatchCallContext { isHTTP := true, idCounter := 0 } (fun _ : Unit => none)
          [{ Method := "eth_blockNumber", Args := () }, { Method := "eth_chainId", Args := () }]) s ∧
      ∀ s', Reachable
          (Step
            { cancellable := false, ctxErr := "", callAnswer := .error "",
              batchAnswer := .ok [{ ID := [49], Error := none, Result := [49] }],
              unmarshal := fun _ => none }
            { isHTTP := true, idCounter := 0 }) s s' → ∀ err, s'.phase ≠ .returned err :=
  BatchCallContext_short_answer_blocks rfl (fun _ _ => rfl) rfl (by decide) fun m mem => by
    rw [List.mem_singleton] at mem
    subst mem
    exact ⟨0, by decide, rfl⟩

end FiscoBcos.Rpc
