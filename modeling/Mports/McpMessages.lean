import Mathlib.Data.Int.Notation
import Mathlib.Data.List.Basic

set_option autoImplicit false

/-!
mcp.cgi: one JSON-RPC message, from `dispatch_request` to the response. The tools, the
session store and the interpolation of a value into a text are parameters.
-/
namespace Mports.McpMessages

/-- A decoded value. A number is what Perl prints for it. -/
inductive Json where
  | null
  | bool (b : Bool)
  | num (text : String)
  | str (text : String)
  | arr (elems : List Json)
  | obj (fields : List (String × Json))
  deriving Repr

namespace Json

/-- `$value eq $text`, for a text that no reference prints as. -/
def is : Json → String → Bool
  | bool b, s => (if b then "1" else "0") = s
  | num t, s => t = s
  | str t, s => t = s
  | _, _ => false

/-- `ref $value`: also a boolean is a blessed reference. -/
def isRef : Json → Bool
  | bool _ | arr _ | obj _ => true
  | _ => false

/-- `$value // $default`. -/
def orElse (default : Json) : Option Json → Json
  | none | some null => default
  | some v => v

end Json

/-- `$req->{$key}`; of equal keys the last one counts. -/
def get (fields : List (String × Json)) (key : String) : Option Json :=
  (fields.reverse.find? (·.1 = key)).map Prod.snd

inductive Tool where
  | lookupPort | getRunStats | listRuns | getPortLog | getLogExcerpt | getPortDetails | getPortEvents
  | getDependencyBlockers | getDistfiles | getPortCves | listRunPorts | searchPorts | comparePortRuns
  | getMachineEvents | topBlockers | analyzeBuildLog | listPortUpdates
  deriving DecidableEq, Repr

namespace Tool

def name : Tool → String
  | lookupPort => "lookup_port"
  | getRunStats => "get_run_stats"
  | listRuns => "list_runs"
  | getPortLog => "get_port_log"
  | getLogExcerpt => "get_log_excerpt"
  | getPortDetails => "get_port_details"
  | getPortEvents => "get_port_events"
  | getDependencyBlockers => "get_dependency_blockers"
  | getDistfiles => "get_distfiles"
  | getPortCves => "get_port_cves"
  | listRunPorts => "list_run_ports"
  | searchPorts => "search_ports"
  | comparePortRuns => "compare_port_runs"
  | getMachineEvents => "get_machine_events"
  | topBlockers => "top_blockers"
  | analyzeBuildLog => "analyze_build_log"
  | listPortUpdates => "list_port_updates"

/-- The keys of `%dispatch`. -/
def all : List Tool :=
  [lookupPort, getRunStats, listRuns, getPortLog, getLogExcerpt, getPortDetails, getPortEvents,
    getDependencyBlockers, getDistfiles, getPortCves, listRunPorts, searchPorts, comparePortRuns,
    getMachineEvents, topBlockers, analyzeBuildLog, listPortUpdates]

end Tool

/-- What `rpc_result` is given; the fixed texts beside it are left out. -/
inductive Result where
  | initialized (protocolVersion : String)
  | tools
  | content (text : String) (isError : Bool)
  deriving DecidableEq, Repr

inductive Payload where
  | result (r : Result)
  | error (code : ℤ) (message : String)
  deriving DecidableEq, Repr

structure Response where
  id : Json
  payload : Payload
  deriving Repr

inductive Body where
  | empty
  | one (r : Response)
  | batch (rs : List Response)
  | eventStream
  deriving Repr

/-- What is printed: the status line, when it is not 200, the session header and the body. -/
structure Reply where
  status : Option String
  session : Option String
  body : Body
  deriving Repr

inductive Handler where
  | toolsList
  | toolsCall (tool : Tool) (args : Json)
  deriving Repr

/-- The globals of the script, what it has printed, and the handlers it has executed. -/
structure Page where
  sessionId : Option String
  collectResponses : Bool
  collectedResponses : List Response
  printed : List Reply
  executed : List Handler
  died : Bool
  deriving Repr

/-- What a tool does: the texts it hands to `tool_result`, with `is_error`, and what it dies of if it dies. -/
structure Outcome where
  results : List (String × Bool)
  died : Option String

/-- What the script cannot decide itself. A tool may answer differently each time it is called. -/
structure Env where
  decode : String → Except String Json
  interpolate : Json → String
  tool : ℕ → Tool → Json → Outcome
  redisGet : String → Except String (Option String)
  redisExpire : String → Except String Unit
  redisSetex : String → String → Json → Except String Unit
  redisDel : String → Except String Unit
  newSessionId : String

namespace Page

def start : Page := ⟨none, false, [], [], [], false⟩

/-- `json_header` and what follows it. -/
def print (page : Page) (status : Option String) (body : Body) : Page :=
  { page with printed := page.printed ++ [⟨status, page.sessionId, body⟩] }

def die (page : Page) : Page := { page with died := true }

def execute (page : Page) (h : Handler) : Page := { page with executed := page.executed ++ [h] }

def setSession (page : Page) (sessionId : String) : Page := { page with sessionId := some sessionId }

def respond (page : Page) (status : Option String) (r : Response) : Page :=
  if page.collectResponses then { page with collectedResponses := page.collectedResponses ++ [r] }
  else page.print status (.one r)

def rpcResult (page : Page) (id : Json) (r : Result) : Page := page.respond none ⟨id, .result r⟩

def rpcError (page : Page) (id : Json) (code : ℤ) (message : String) : Page :=
  page.respond (some "400 Bad Request") ⟨id, .error code message⟩

def toolResult (page : Page) (id : Json) (text : String) (isError : Bool) : Page :=
  page.rpcResult id (.content text isError)

def acknowledgeNotification (page : Page) : Page :=
  if page.collectResponses then page else page.print (some "202 Accepted") .empty

end Page

def supportedProtocolVersions : List String := ["2025-06-18", "2025-03-26", "2024-11-05"]

def negotiatedProtocolVersion (requested : Option Json) : String :=
  match requested with
  | none | some .null => "2025-06-18"
  | some v => (supportedProtocolVersions.find? v.is).getD "2025-06-18"

def isJsonrpcResponse (fields : List (String × Json)) : Bool :=
  (get fields "id").isSome && !((get fields "result").isSome && (get fields "error").isSome) &&
    ((get fields "result").isSome || (get fields "error").isSome)

def isInitializeRequest : Json → Bool
  | .obj fields => (get fields "method").any fun m => m.is "initialize"
  | _ => false

def batchContainsInitialize (batch : List Json) : Bool := batch.any isInitializeRequest

section Dispatch
variable (env : Env)

/-- `$params->{...}` dies unless the parameters are an object. -/
def handleInitialize (page : Page) (id params : Json) : Page :=
  match params with
  | .obj fields =>
    let version := negotiatedProtocolVersion (get fields "protocolVersion")
    let clientInfo := match get fields "clientInfo" with
      | some (.obj client) => Json.obj client
      | _ => Json.obj []
    match env.redisSetex env.newSessionId version clientInfo with
    | .ok _ => (page.setSession env.newSessionId).rpcResult id (.initialized version)
    | .error message => page.rpcError id (-32002) ("Could not create MCP session: " ++ message)
  | _ => page.die

def handleToolsList (page : Page) (id : Json) : Page :=
  (page.execute .toolsList).rpcResult id .tools

def handleToolsCall (page : Page) (id params : Json) : Page :=
  match params with
  | .obj fields =>
    let name := Json.orElse (.str "") (get fields "name")
    let args := Json.orElse (.obj []) (get fields "arguments")
    match Tool.all.find? fun t => name.is t.name with
    | some tool =>
      let outcome := env.tool page.executed.length tool args
      let called := outcome.results.foldl (fun page r => page.toolResult id r.1 r.2) (page.execute (.toolsCall tool args))
      match outcome.died with
      | none => called
      | some message => called.toolResult id ("Internal error: " ++ message) true
    | none => page.rpcError id (-32602) ("Unknown tool: " ++ env.interpolate name)
  | _ => page.die

def dispatchRequest (page : Page) (req : Json) : Page :=
  match req with
  | .obj fields =>
    if (get fields "jsonrpc").any fun v => v.is "2.0" then
      match get fields "method" with
      | none =>
        if isJsonrpcResponse fields then page.acknowledgeNotification
        else page.rpcError (Json.orElse .null (get fields "id")) (-32600) "Invalid Request"
      | some method =>
        let params := Json.orElse (.obj []) (get fields "params")
        if method.is "initialize" then match get fields "id" with
          | none => page.acknowledgeNotification
          | some id => handleInitialize env page id params
        else if method.is "notifications/initialized" then page.acknowledgeNotification
        else if method.is "tools/list" then match get fields "id" with
          | none => page.acknowledgeNotification
          | some id => handleToolsList page id
        else if method.is "tools/call" then match get fields "id" with
          | none => page.acknowledgeNotification
          | some id => handleToolsCall env page id params
        else match get fields "id" with
          | none => page.acknowledgeNotification
          | some id => page.rpcError id (-32601) ("Method not found: " ++ env.interpolate method)
    else page.rpcError .null (-32600) "Invalid Request: jsonrpc must be \"2.0\""
  | _ => page.rpcError .null (-32600) "Invalid Request"

/-- `dispatch_request($_) for @$req`. -/
def dispatchAll (page : Page) : List Json → Page
  | [] => page
  | req :: rest =>
    let page' := dispatchRequest env page req
    if page'.died then page' else dispatchAll page' rest

end Dispatch
end Mports.McpMessages
