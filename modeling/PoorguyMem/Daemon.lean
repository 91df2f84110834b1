import PoorguyMem.Fidelity
import PoorguyMem.HttpFraming
import PoorguyMem.RequestIds

/-!
# The daemon

`pgmemd` answers requests as soon as its port is open, and loads the engine meanwhile: until
that is done every route it has answers 503. What the engine meets is therefore what a server
of the dispatcher does: a start loads it, and then every request to `/mcp` is one request to
the dispatcher or none.
-/

namespace PoorguyMem

open ByteString PropertyTree JsonValue

variable {K : Type}

/-! ### Routes -/

def upperByte (c : UInt8) : UInt8 := if 97 ≤ c ∧ c ≤ 122 then c - 32 else c

def routeKey (method path : Bytes) : Bytes := method.map upperByte ++ 32 :: path

/-- The handlers that `main` registers. -/
inductive Handler where
  | health | mcp | describe
  deriving DecidableEq

def registerRoute (routes : StringMap Handler) (method path : Bytes) (handler : Handler) :
    StringMap Handler :=
  routes.insert (routeKey method path) handler

def routes : StringMap Handler :=
  let routes := registerRoute ∅ (ascii "GET") (ascii "/health") .health
  let routes := registerRoute routes (ascii "POST") (ascii "/mcp") .mcp
  registerRoute routes (ascii "GET") (ascii "/mcp/describe") .describe

/-- The server of the dispatcher with what the daemon reads and prints bodies with. -/
structure Pgmemd (K : Type) where
  srv : Server K
  parseBody : Bytes → Option (McpBody K)
  printed : Value K → Bytes
  streamed : K → Bytes

section Daemon
variable [Field K] [LinearOrder K] (pgmemd : Pgmemd K) (occ : Occasion K)

/-- The routes' handlers; no response where an exception leaves one. -/
def handleRoute (ready : Bool) (w : World K) (request : HttpRequest) :
    Handler → World K × Option (McpReply K)
  | .health =>
    if ready then (w, some (.text 200 (ascii "\x7b\"status\":\"ok\"\x7d")))
    else (w, some (.text 503 (ascii "\x7b\"status\":\"starting\"\x7d")))
  | .mcp =>
    match pgmemd.parseBody request.body with
    | some body => postMcp pgmemd.srv occ pgmemd.printed pgmemd.streamed ready w body
    | none =>
      if ready then (w, some (.text 400 (ascii "\x7b\"error\":\"invalid JSON\"\x7d")))
      else (w, some (.text 503 (ascii "\x7b\"error\":\"server is warming up\"\x7d")))
  | .describe =>
    if ready then
      let described := describe pgmemd.srv.env.translators false (pgmemd.srv.env.clock w.tick)
      ({ w with tick := w.tick + 1 }, (toJson described).map fun result =>
        .text 200 (pgmemd.printed
          (normalizeResultByMethod pgmemd.srv (ascii "memory.describe") result)))
    else (w, some (.text 503 (ascii "\x7b\"error\":\"server is warming up\"\x7d")))

/-- `HttpServer::Dispatch`, with the text of an exception that leaves the handler. -/
def dispatch (what : Bytes) (ready : Bool) (w : World K) (request : HttpRequest) :
    World K × McpReply K :=
  match routes[routeKey request.method request.path]? with
  | none => (w, .text 404 (ascii "\x7b\"error\":\"route not found\"\x7d"))
  | some handler =>
    match handleRoute pgmemd occ ready w request handler with
    | (w, some reply) => (w, reply)
    | (w, none) => (w, .text 500 (ascii "\x7b\"error\":\"" ++ what ++ ascii "\"\x7d"))

end Daemon

/-! ### What a request does -/

section Requests
variable [Field K] [LinearOrder K] {srv : Server K} {occ : Occasion K} {w w' : World K}

/-- The world after no request to the dispatcher, or after one. -/
def Asked (srv : Server K) (occ : Occasion K) (w w' : World K) : Prop :=
  w' = w ∨ ∃ request, w' = (handle srv occ w request).1

/-- A request that reads the clock, as a listing of the tools does. -/
def describeRequest : Ptree := memoryRequest "describe" (ascii "memory.describe") none

theorem asked_tick (srv : Server K) (occ : Occasion K) (w : World K) :
    Asked srv occ w { w with tick := w.tick + 1 } :=
  Or.inr ⟨describeRequest, rfl⟩

theorem asked_callMethod (name : Bytes) (params : Option (Value K)) :
    Asked srv occ w (callMethod srv occ w name params).1 := by
  rw [callMethod]
  split
  · exact Or.inl rfl
  · split
    · rename_i heq
      exact Or.inr ⟨_, (congrArg Prod.fst heq).symm⟩
    · rename_i heq
      split <;> exact Or.inr ⟨_, (congrArg Prod.fst heq).symm⟩

theorem asked_callTool (params : Option (Value K)) :
    Asked srv occ w (callTool srv occ w params).1 := by
  unfold callTool
  split
  · split
    · dsimp only
      split
      · split
        · exact Or.inl rfl
        · split
          · rename_i heq
            exact Or.inr ⟨_, (congrArg Prod.fst heq).symm⟩
          · rename_i heq
            exact Or.inr ⟨_, (congrArg Prod.fst heq).symm⟩
      · exact Or.inl rfl
    · exact Or.inl rfl
  · exact Or.inl rfl

theorem asked_callDirect (request : Ptree) :
    Asked srv occ w (callDirect srv occ w request).1 := by
  rw [callDirect]
  split
  · rename_i heq
    exact Or.inr ⟨_, (congrArg Prod.fst heq).symm⟩
  · rename_i heq
    exact Or.inr ⟨_, (congrArg Prod.fst heq).symm⟩

variable (srv occ w) (printed : Value K → Bytes) (streamed : K → Bytes)

theorem dispatchRpc_spec (idLiteral method : Bytes) (params : Option (Value K)) :
    Asked srv occ w (dispatchRpc srv occ printed w idLiteral method params).1 ∧
      ∀ reply, (dispatchRpc srv occ printed w idLiteral method params).2 = some reply →
        reply.status = 200 ∨ reply.status = 204 := by
  have answered : ∀ out : World K × Option (RpcReply K), Asked srv occ w out.1 →
      Asked srv occ w out.1 ∧ ∀ reply : McpReply K, (out.2.map fun reply => McpReply.text 200
        (rpcReplyText printed idLiteral reply)) = some reply →
          reply.status = 200 ∨ reply.status = 204 := by
    intro out hasked
    refine ⟨hasked, fun reply hreply => ?_⟩
    obtain ⟨rpc, -, rfl⟩ := Option.map_eq_some_iff.mp hreply
    exact Or.inl rfl
  rw [dispatchRpc]
  dsimp only
  split
  · refine ⟨Or.inl rfl, fun reply hreply => ?_⟩
    obtain rfl := Option.some.inj hreply
    exact Or.inr rfl
  split
  · refine ⟨Or.inl rfl, fun reply hreply => ?_⟩
    obtain rfl := Option.some.inj hreply
    exact Or.inl rfl
  split
  · refine ⟨Or.inl rfl, fun reply hreply => ?_⟩
    obtain rfl := Option.some.inj hreply
    exact Or.inl rfl
  split
  · exact answered (_, _) (asked_tick srv occ w)
  split
  · exact answered _ (asked_callTool params)
  split
  · exact answered _ (asked_callMethod method params)
  · exact answered (_, some _) (Or.inl rfl)

/-- A body with the member `jsonrpc` is answered, any other is passed on. -/
theorem handleMcpJsonRpc_spec (body : McpBody K) :
    Asked srv occ w (handleMcpJsonRpc srv occ printed streamed w body).1 ∧
      ∀ reply, (handleMcpJsonRpc srv occ printed streamed w body).2 = some reply →
        reply.status = 200 ∨ reply.status = 204 ∨
          reply.status = 0 ∧ (handleMcpJsonRpc srv occ printed streamed w body).1 = w := by
  rw [handleMcpJsonRpc]
  split
  · refine ⟨Or.inl rfl, fun reply hreply => ?_⟩
    obtain rfl := Option.some.inj hreply
    exact Or.inr (Or.inr ⟨rfl, rfl⟩)
  · dsimp only
    split
    · split
      · split
        · rename_i method _
          obtain ⟨hasked, hstatus⟩ := dispatchRpc_spec srv occ w printed
            (jsonRpcIdLiteral streamed (lookup (ascii "id") body.members)) (cString method)
            (lookup (ascii "params") body.members)
          exact ⟨hasked, fun reply hreply => (hstatus reply hreply).imp_right Or.inl⟩
        · refine ⟨Or.inl rfl, fun reply hreply => ?_⟩
          obtain rfl := Option.some.inj hreply
          exact Or.inl rfl
      · refine ⟨Or.inl rfl, fun reply hreply => ?_⟩
        obtain rfl := Option.some.inj hreply
        exact Or.inl rfl
    · refine ⟨Or.inl rfl, fun reply hreply => ?_⟩
      obtain rfl := Option.some.inj hreply
      exact Or.inl rfl

theorem postMcp_ready (body : McpBody K) :
    Asked srv occ w (postMcp srv occ printed streamed true w body).1 ∧
      ∀ reply, (postMcp srv occ printed streamed true w body).2 = some reply →
        reply.status = 200 ∨ reply.status = 204 := by
  obtain ⟨hasked, hstatus⟩ := handleMcpJsonRpc_spec srv occ w printed streamed body
  rw [postMcp, if_pos rfl]
  split
  · rename_i w₁ inner heq
    rw [heq] at hasked hstatus
    split
    · rename_i hzero
      have hsame : w₁ = w := by
        rcases hstatus inner rfl with h | h | h
        · omega
        · omega
        · exact h.2
      subst hsame
      refine ⟨asked_callDirect body.tree, fun reply hreply => ?_⟩
      obtain ⟨doc, -, rfl⟩ := Option.map_eq_some_iff.mp hreply
      exact Or.inl rfl
    · rename_i hne
      refine ⟨hasked, fun reply hreply => ?_⟩
      obtain rfl := Option.some.inj hreply
      rcases hstatus inner rfl with h | h | h
      · exact Or.inl h
      · exact Or.inr h
      · exact absurd h.1 hne
  · rename_i heq
    rw [heq] at hasked
    exact ⟨hasked, fun reply hreply => by cases hreply⟩

end Requests

/-! ### The routes' answers -/

section Answers
variable [Field K] [LinearOrder K] (pgmemd : Pgmemd K) (occ : Occasion K) (w : World K)

/-- Until the engine is loaded a handler answers 503 and does nothing. -/
theorem handleRoute_starting (request : HttpRequest) (handler : Handler) :
    ∃ body, handleRoute pgmemd occ false w request handler = (w, some (.text 503 body)) := by
  cases handler with
  | health => exact ⟨_, rfl⟩
  | mcp =>
    rw [handleRoute]
    split
    · exact ⟨_, rfl⟩
    · exact ⟨_, rfl⟩
  | describe => exact ⟨_, rfl⟩

theorem handleRoute_ready (request : HttpRequest) (handler : Handler) :
    Asked pgmemd.srv occ w (handleRoute pgmemd occ true w request handler).1 ∧
      ∀ reply, (handleRoute pgmemd occ true w request handler).2 = some reply →
        reply.status ∈ [200, 204, 400] := by
  cases handler with
  | health =>
    refine ⟨Or.inl rfl, fun reply hreply => ?_⟩
    obtain rfl := Option.some.inj hreply
    exact List.mem_cons_self
  | mcp =>
    rw [handleRoute]
    split
    · obtain ⟨hasked, hstatus⟩ := postMcp_ready pgmemd.srv occ w pgmemd.printed pgmemd.streamed _
      refine ⟨hasked, fun reply hreply => ?_⟩
      rcases hstatus reply hreply with h | h
      · rw [h]
        decide
      · rw [h]
        decide
    · refine ⟨Or.inl rfl, fun reply hreply => ?_⟩
      obtain rfl := Option.some.inj hreply
      simp [McpReply.status]
  | describe =>
    refine ⟨asked_tick pgmemd.srv occ w, fun reply hreply => ?_⟩
    obtain ⟨result, -, rfl⟩ := Option.map_eq_some_iff.mp hreply
    exact List.mem_cons_self

/-- Whatever the request: where there is no route it is answered 404, where the engine is not
loaded 503, and otherwise 200, 204, 400 or, where an exception left the handler, 500. Only a
request that is not answered 404, 503 or 400 comes to the dispatcher, once. -/
theorem dispatch_spec (what : Bytes) (ready : Bool) (request : HttpRequest) :
    let res := dispatch pgmemd occ what ready w request
    (res.2.status = 404 ↔ routes[routeKey request.method request.path]? = none) ∧
      (res.2.status = 503 ↔
        (routes[routeKey request.method request.path]?).isSome ∧ ready = false) ∧
      res.2.status ∈ [200, 204, 400, 404, 500, 503] ∧
      (ready = false → res.1 = w) ∧ Asked pgmemd.srv occ w res.1 := by
  intro res
  rcases hroute : routes[routeKey request.method request.path]? with _ | handler
  · have hres : res = (w, .text 404 (ascii "\x7b\"error\":\"route not found\"\x7d")) := by
      dsimp only [res]
      rw [dispatch, hroute]
    rw [hres]
    exact ⟨by simp [McpReply.status], by simp [McpReply.status], by simp [McpReply.status],
      fun _ => rfl, Or.inl rfl⟩
  · cases ready with
    | false =>
      obtain ⟨body, hbody⟩ := handleRoute_starting pgmemd occ w request handler
      have hres : res = (w, .text 503 body) := by
        dsimp only [res]
        rw [dispatch, hroute]
        dsimp only
        rw [hbody]
      rw [hres]
      exact ⟨by simp [McpReply.status], by simp [McpReply.status], by simp [McpReply.status],
        fun _ => rfl, Or.inl rfl⟩
    | true =>
      obtain ⟨hasked, hstatus⟩ := handleRoute_ready pgmemd occ w request handler
      have hmem : res.2.status ∈ [200, 204, 400, 500] ∧ res.1 =
          (handleRoute pgmemd occ true w request handler).1 := by
        dsimp only [res]
        rw [dispatch, hroute]
        dsimp only
        split
        · rename_i heq
          rw [heq] at hstatus ⊢
          have hreply := hstatus _ rfl
          simp only [List.mem_cons, List.not_mem_nil, or_false] at hreply ⊢
          exact ⟨by omega, trivial⟩
        · rename_i heq
          rw [heq]
          exact ⟨by simp [McpReply.status], rfl⟩
      rw [hmem.2]
      have hstatus' := hmem.1
      simp only [List.mem_cons, List.not_mem_nil, or_false] at hstatus' ⊢
      refine ⟨⟨fun h => ?_, fun h => absurd h (by simp)⟩,
        ⟨fun h => ?_, fun h => absurd h.2 (by simp)⟩, ?_, fun h => absurd h (by simp), hasked⟩
      · omega
      · omega
      · omega

end Answers

/-! ### The process -/

inductive Phase (K : Type) where
  | down (interrupted : Option (Call K × Fate))
  | starting (interrupted : Option (Call K × Fate)) (options : MemoryEngineOptions K)
  | ready

/-- A daemon with the world of its engine and its store. What a call that the process did not
outlive has committed is looked at when the next one loads. -/
structure Daemon (K : Type) where
  phase : Phase K
  world : World K

/-- The events of `main`: the port is opened, the engine is loaded, a request is handled, the
engine collects garbage, and the process ends, with a call under way or not. -/
inductive DaemonEvent (K : Type) where
  | start (options : MemoryEngineOptions K)
  | warmup
  | request (request : HttpRequest) (occ : Occasion K) (what : Bytes)
  | gc (fate : Fate)
  | exit (interrupted : Option (Call K × Fate))

/-- `kDefaultNodeIdLocal` -/
def defaultNodeId : Bytes := ascii "local"

section Process
variable [Field K] [LinearOrder K] (pgmemd : Pgmemd K)

namespace Daemon

def next (d : Daemon K) : DaemonEvent K → Daemon K
  | .start options =>
    match d.phase with
    | .down interrupted => { d with phase := .starting interrupted options }
    | _ => d
  | .warmup =>
    match d.phase with
    | .starting interrupted options =>
      ⟨.ready, PoorguyMem.next pgmemd.srv.env d.world
        (.restart interrupted defaultNodeId options)⟩
    | _ => d
  | .request request occ what =>
    match d.phase with
    | .down _ => d
    | .starting _ _ => { d with world := (dispatch pgmemd occ what false d.world request).1 }
    | .ready => { d with world := (dispatch pgmemd occ what true d.world request).1 }
  | .gc fate =>
    match d.phase with
    | .ready => { d with world := PoorguyMem.next pgmemd.srv.env d.world (.call .gc fate) }
    | _ => d
  | .exit interrupted =>
    match d.phase with
    | .down _ => d
    | .starting pending _ => { d with phase := .down pending }
    | .ready => { d with phase := .down interrupted }

/-- The response to a request, where the port is open. -/
def respond (d : Daemon K) (request : HttpRequest) (occ : Occasion K) (what : Bytes) :
    Option (McpReply K) :=
  match d.phase with
  | .down _ => none
  | .starting _ _ => some (dispatch pgmemd occ what false d.world request).2
  | .ready => some (dispatch pgmemd occ what true d.world request).2

end Daemon

/-- What an event may have the server of the dispatcher do: nothing, or one step, which is a
request on the same occasion, a collection with the same fate, or the start of an engine. -/
def DaemonEvent.Takes : DaemonEvent K → List (ServerStep K) → Prop
  | _, [] => True
  | .request _ occ _, [step] => ∃ request, step = .dispatch request occ
  | .gc fate, [step] => step = .own (.call .gc fate)
  | .warmup, [step] => ∃ interrupted options,
      step = .own (.restart interrupted defaultNodeId options)
  | _, _ => False

theorem Daemon.takes_next (d : Daemon K) (event : DaemonEvent K) :
    ∃ steps, event.Takes steps ∧
      (d.next pgmemd event).world = Runs.exec (serve pgmemd.srv) d.world steps := by
  have quiet : event.Takes ([] : List (ServerStep K)) := by
    cases event <;> trivial
  cases event with
  | start options =>
    refine ⟨[], quiet, ?_⟩
    rw [next]
    split <;> rfl
  | warmup =>
    rw [next]
    split
    · rename_i interrupted options _
      exact ⟨[.own (.restart interrupted defaultNodeId options)], ⟨interrupted, options, rfl⟩, rfl⟩
    · exact ⟨[], quiet, rfl⟩
  | request request occ what =>
    have hasked : ∀ ready, ∃ steps, (DaemonEvent.request request occ what).Takes steps ∧
        (dispatch pgmemd occ what ready d.world request).1 =
          Runs.exec (serve pgmemd.srv) d.world steps := by
      intro ready
      obtain ⟨-, -, -, -, hsame | ⟨asked, hasked⟩⟩ :=
        dispatch_spec pgmemd occ d.world what ready request
      · exact ⟨[], quiet, hsame⟩
      · exact ⟨[.dispatch asked occ], ⟨asked, rfl⟩, hasked⟩
    rw [next]
    split
    · exact ⟨[], quiet, rfl⟩
    · exact hasked false
    · exact hasked true
  | gc fate =>
    rw [next]
    split
    · exact ⟨[.own (.call .gc fate)], rfl, rfl⟩
    · exact ⟨[], quiet, rfl⟩
  | exit interrupted =>
    refine ⟨[], quiet, ?_⟩
    rw [next]
    split <;> rfl

/-- In whatever state the daemon is, a request gets no response exactly where the process is
down, 404 where it has no such route, 503 where it has one and loads the engine, and otherwise
200, 204, 400 or 500; and until the engine is loaded no request does anything to it. -/
theorem daemon_answers (d : Daemon K) (request : HttpRequest) (occ : Occasion K)
    (what : Bytes) :
    (d.respond pgmemd request occ what = none ↔ ∃ interrupted, d.phase = .down interrupted) ∧
      (∀ reply, d.respond pgmemd request occ what = some reply →
        (reply.status = 404 ↔ routes[routeKey request.method request.path]? = none) ∧
        (reply.status = 503 ↔ (routes[routeKey request.method request.path]?).isSome ∧
          ∃ interrupted options, d.phase = .starting interrupted options) ∧
        reply.status ∈ [200, 204, 400, 404, 500, 503]) ∧
      (d.phase ≠ .ready → d.next pgmemd (.request request occ what) = d) := by
  have hspec := fun ready =>
    dispatch_spec pgmemd occ d.world what ready request
  rw [Daemon.respond, Daemon.next]
  obtain ⟨phase, w⟩ := d
  cases phase with
  | down interrupted =>
    refine ⟨iff_of_true rfl ⟨interrupted, rfl⟩, ?_, fun _ => rfl⟩
    rintro reply ⟨⟩
  | starting interrupted options =>
    obtain ⟨hmissing, hbusy, hstatus, hsame, -⟩ := hspec false
    refine ⟨iff_of_false (by simp) (by simp), ?_, fun _ => ?_⟩
    · rintro reply hreply
      obtain rfl := Option.some.inj hreply
      refine ⟨hmissing, hbusy.trans (and_congr_right fun _ => ?_), hstatus⟩
      exact iff_of_true rfl ⟨interrupted, options, rfl⟩
    · dsimp only
      rw [hsame rfl]
  | ready =>
    obtain ⟨hmissing, hbusy, hstatus, -, -⟩ := hspec true
    refine ⟨iff_of_false (by simp) (by simp), ?_, fun h => absurd rfl h⟩
    rintro reply hreply
    obtain rfl := Option.some.inj hreply
    refine ⟨hmissing, hbusy.trans (and_congr_right fun _ => ?_), hstatus⟩
    exact iff_of_false (by simp) (by simp)

end Process

end PoorguyMem
