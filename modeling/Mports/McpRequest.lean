import Mports.McpMessages
import Mports.PerlText

set_option autoImplicit false

namespace Mports.McpRequest
open McpMessages PerlText

structure Request where
  requestMethod : String
  accept : Option String
  protocolVersion : Option String
  sessionId : Option String
  postData : Option String

section Headers

/-- A media range of the Accept header, for a wanted type in lower case. -/
def acceptsEntry (type subtype : String) (entry : List Char) : Bool :=
  match splitOnce '/' (trim ((lc (trim entry)).takeWhile (· ≠ ';'))) with
  | some (t, s) =>
    (t = ['*'] && s = ['*']) || (t = type.toList && s = ['*']) || (t = type.toList && s = subtype.toList)
  | none => false

def acceptsContentType (request : Request) (type subtype : String) : Bool :=
  ((request.accept.getD "").toList.splitOn ',').any (acceptsEntry type subtype)

def effectiveProtocolVersion (request : Request) : String :=
  let version := request.protocolVersion.getD ""
  if version ≠ "" then version else "2025-03-26"

def validateMcpProtocolHeader (request : Request) : Bool :=
  supportedProtocolVersions.contains (effectiveProtocolVersion request)

def requestSessionId (request : Request) : String := request.sessionId.getD ""

/-- At most 128 characters, all in `[!-~]`, and one at least. -/
def validSessionIdSyntax (sessionId : String) : Bool :=
  sessionId.length ≤ 128 && sessionId ≠ "" && sessionId.toList.all fun c => '!' ≤ c && c ≤ '~'

def sessionKey (sessionId : String) : String := "magus:mcp:session:" ++ sessionId

end Headers

def httpJsonError (page : Page) (status : String) (code : ℤ) (message : String) : Page :=
  page.print (some status) (.one ⟨.null, .error code message⟩)

section Flow
variable (env : Env)

def validateSession (page : Page) (sessionId : String) : Page × Bool :=
  if validSessionIdSyntax sessionId then
    match env.redisGet (sessionKey sessionId) with
    | .error message => (httpJsonError page "503 Service Unavailable" (-32002)
        ("Could not validate MCP session: " ++ message), false)
    | .ok none => (httpJsonError page "404 Not Found" (-32001) "MCP session not found or expired", false)
    | .ok (some _) => match env.redisExpire (sessionKey sessionId) with
      | .error message => (httpJsonError page "503 Service Unavailable" (-32002)
          ("Could not refresh MCP session: " ++ message), false)
      | .ok _ => (page.setSession sessionId, true)
  else (httpJsonError page "400 Bad Request" (-32600) "Mcp-Session-Id header is invalid", false)

def validateSessionHeader (page : Page) (request : Request) : Page × Bool :=
  if requestSessionId request = "" then
    (httpJsonError page "400 Bad Request" (-32600) "Mcp-Session-Id header is required", false)
  else validateSession env page (requestSessionId request)

def handleSessionDelete (page : Page) (request : Request) : Page :=
  if requestSessionId request = "" then
    httpJsonError page "400 Bad Request" (-32600) "Mcp-Session-Id header is required"
  else if !validSessionIdSyntax (requestSessionId request) then
    httpJsonError page "400 Bad Request" (-32600) "Mcp-Session-Id header is invalid"
  else match env.redisDel (sessionKey (requestSessionId request)) with
    | .error message =>
      httpJsonError page "503 Service Unavailable" (-32002) ("Could not delete MCP session: " ++ message)
    | .ok _ => page.print (some "202 Accepted") .empty

def handleSseGet (page : Page) (request : Request) : Page :=
  if !validateMcpProtocolHeader request then
    httpJsonError page "400 Bad Request" (-32600) "Unsupported MCP-Protocol-Version header"
  else
    let (page, valid) :=
      if requestSessionId request = "" then (page, true)
      else validateSession env page (requestSessionId request)
    if valid then { page with printed := page.printed ++ [⟨none, none, .eventStream⟩] } else page

def serveBatch (page : Page) (request : Request) (batch : List Json) : Page :=
  if batch.isEmpty then page.rpcError .null (-32600) "Invalid Request: empty batch"
  else if effectiveProtocolVersion request = "2025-06-18" then
    page.rpcError .null (-32600) "JSON-RPC batch requests are not supported for MCP 2025-06-18"
  else if batchContainsInitialize batch then
    page.rpcError .null (-32600) "initialize must not be part of a JSON-RPC batch"
  else
    let page := dispatchAll env { page with collectedResponses := [], collectResponses := true } batch
    if page.died then page
    else
      let page := { page with collectResponses := false }
      if page.collectedResponses.isEmpty then page.print (some "202 Accepted") .empty
      else page.print none (.batch page.collectedResponses)

def serveMessage (page : Page) (request : Request) (req : Json) : Page :=
  let isInitialize := isInitializeRequest req
  let batchHasInitialize := match req with
    | .arr batch => batchContainsInitialize batch
    | _ => false
  if !(isInitialize || validateMcpProtocolHeader request) then
    page.rpcError .null (-32600) "Unsupported MCP-Protocol-Version header"
  else
    let (page, valid) :=
      if isInitialize || batchHasInitialize then (page, true) else validateSessionHeader env page request
    if !valid then page
    else match req with
      | .arr batch => serveBatch env page request batch
      | .obj fields => dispatchRequest env page (.obj fields)
      | _ => page.rpcError .null (-32600) "Invalid Request"

def servePost (page : Page) (request : Request) : Page :=
  let body := request.postData.getD ""
  if body = "" then page.rpcError .null (-32700) "Parse error: empty request body"
  else match env.decode body with
    | .error message => page.rpcError .null (-32700) ("Parse error: " ++ message)
    | .ok req =>
      if !req.isRef then page.rpcError .null (-32700) "Parse error: "
      else serveMessage env page request req

def serve (request : Request) : Page :=
  if request.requestMethod = "GET" then
    if !acceptsContentType request "text" "event-stream" then
      httpJsonError .start "406 Not Acceptable" (-32600) "Accept header must include text/event-stream"
    else handleSseGet env .start request
  else if request.requestMethod = "DELETE" then
    if !validateMcpProtocolHeader request then
      httpJsonError .start "400 Bad Request" (-32600) "Unsupported MCP-Protocol-Version header"
    else handleSessionDelete env .start request
  else if request.requestMethod ≠ "POST" then
    httpJsonError .start "405 Method Not Allowed" (-32600) "Use POST with a JSON-RPC 2.0 body"
  else if !(acceptsContentType request "application" "json" &&
      acceptsContentType request "text" "event-stream") then
    httpJsonError .start "406 Not Acceptable" (-32600)
      "Accept header must include application/json and text/event-stream"
  else servePost env .start request

end Flow

section Executed
variable {env : Env} {page : Page} {request : Request}

@[simp] theorem start_executed : Page.start.executed = [] := rfl

@[simp] theorem print_executed {status : Option String} {body : Body} :
    (page.print status body).executed = page.executed := rfl

@[simp] theorem setSession_executed {sessionId : String} :
    (page.setSession sessionId).executed = page.executed := rfl

@[simp] theorem die_executed : page.die.executed = page.executed := rfl

@[simp] theorem respond_executed {status : Option String} {r : Response} :
    (page.respond status r).executed = page.executed := by
  unfold Page.respond
  split <;> rfl

@[simp] theorem rpcError_executed {id : Json} {code : ℤ} {message : String} :
    (page.rpcError id code message).executed = page.executed := respond_executed

@[simp] theorem rpcResult_executed {id : Json} {r : Result} :
    (page.rpcResult id r).executed = page.executed := respond_executed

@[simp] theorem httpJsonError_executed {status : String} {code : ℤ} {message : String} :
    (httpJsonError page status code message).executed = page.executed := rfl

@[simp] theorem acknowledgeNotification_executed :
    page.acknowledgeNotification.executed = page.executed := by
  unfold Page.acknowledgeNotification
  split <;> rfl

@[simp] theorem handleInitialize_executed {id params : Json} :
    (handleInitialize env page id params).executed = page.executed := by
  unfold handleInitialize
  split
  · simp only
    cases env.redisSetex env.newSessionId _ _ <;> simp
  · simp

@[simp] theorem validateSession_executed {sessionId : String} :
    (validateSession env page sessionId).1.executed = page.executed := by
  unfold validateSession
  split
  · split
    · simp
    · simp
    · split <;> simp
  · simp

@[simp] theorem validateSessionHeader_executed :
    (validateSessionHeader env page request).1.executed = page.executed := by
  unfold validateSessionHeader
  split <;> simp

@[simp] theorem handleSessionDelete_executed :
    (handleSessionDelete env page request).executed = page.executed := by
  unfold handleSessionDelete
  split
  · simp
  · split
    · simp
    · split <;> simp

@[simp] theorem handleSseGet_executed : (handleSseGet env page request).executed = page.executed := by
  unfold handleSseGet
  split
  · simp
  · by_cases h : requestSessionId request = ""
    · simp [h]
    · simp only [h, if_false]
      split <;> simp

theorem dispatch_initialize_executed {req : Json} (h : isInitializeRequest req = true) :
    (dispatchRequest env page req).executed = page.executed := by
  unfold isInitializeRequest at h
  split at h
  · rename_i fields
    simp only [Option.any_eq_true] at h
    obtain ⟨method, hmethod, hlone⟩ := h
    simp only [dispatchRequest, hmethod, hlone, if_true]
    split
    · split <;> simp
    · simp
  · cases h

end Executed

theorem validateSession_true {env : Env} {page : Page} {sessionId : String}
    (h : (validateSession env page sessionId).2 = true) :
    validSessionIdSyntax sessionId = true ∧ ∃ state, env.redisGet (sessionKey sessionId) = .ok (some state) := by
  unfold validateSession at h
  split at h
  · rename_i hvalid
    split at h
    · cases h
    · cases h
    · rename_i state hstate
      exact ⟨hvalid, state, hstate⟩
  · cases h

/-- What every executed handler has behind it. -/
structure Validated (env : Env) (request : Request) : Prop where
  version : validateMcpProtocolHeader request = true
  header : (validateSessionHeader env .start request).2 = true
  wellFormed : validSessionIdSyntax (requestSessionId request) = true
  session : ∃ state, env.redisGet (sessionKey (requestSessionId request)) = .ok (some state)

section Validation
variable {env : Env} {request : Request}

theorem validated_of_header (version : validateMcpProtocolHeader request = true)
    (header : (validateSessionHeader env .start request).2 = true) : Validated env request := by
  have hsession := header
  unfold validateSessionHeader at hsession
  split at hsession
  · cases hsession
  · obtain ⟨hvalid, hstate⟩ := validateSession_true hsession
    exact ⟨version, header, hvalid, hstate⟩

theorem serveBatch_initialize {page : Page} {batch : List Json}
    (h : batchContainsInitialize batch = true) :
    (serveBatch env page request batch).executed = page.executed := by
  unfold serveBatch
  split_ifs <;> simp

theorem serveMessage_validated {req : Json}
    (h : (serveMessage env .start request req).executed ≠ []) : Validated env request := by
  unfold serveMessage at h
  by_cases hlone : isInitializeRequest req = true
  · -- a lone initialize skips both checks
    exfalso
    cases req with
    | obj fields => exact h (by simp [hlone, dispatch_initialize_executed])
    | _ => cases hlone
  · rw [Bool.not_eq_true] at hlone
    by_cases hversion : validateMcpProtocolHeader request = true
    · by_cases hheader : (validateSessionHeader env .start request).2 = true
      · exact validated_of_header hversion hheader
      · rw [Bool.not_eq_true] at hheader
        exfalso
        cases req with
        | arr batch =>
          by_cases hbatch : batchContainsInitialize batch = true
          · exact h (by simp [hlone, hversion, hbatch, serveBatch_initialize hbatch])
          · exact h (by simp [hlone, hversion, hbatch, hheader])
        | _ => exact h (by simp [hlone, hversion, hheader])
    · exact absurd (by simp [hlone, hversion]) h

theorem servePost_validated (h : (servePost env .start request).executed ≠ []) :
    Validated env request := by
  simp only [servePost] at h
  split at h
  · exact absurd rpcError_executed h
  · split at h
    · exact absurd rpcError_executed h
    · split at h
      · exact absurd rpcError_executed h
      · exact serveMessage_validated h

end Validation

/-- No handler is executed without a supported protocol version and a valid session. -/
theorem executed_validated {env : Env} {request : Request} (h : (serve env request).executed ≠ []) :
    Validated env request := by
  unfold serve at h
  split_ifs at h
  · exact absurd rfl h
  · exact absurd handleSseGet_executed h
  · exact absurd rfl h
  · exact absurd handleSessionDelete_executed h
  · exact absurd rfl h
  · exact absurd rfl h
  · exact servePost_validated h

def sampleEnv (decoded : Json) : Env where
  decode := fun _ => .ok decoded
  interpolate := fun _ => "HASH(0x1)"
  tool := fun _ _ _ => ⟨[("No runs found matching the given criteria.", false)], none⟩
  redisGet := fun key => .ok (if key = "magus:mcp:session:abc" then some "" else none)
  redisExpire := fun _ => .ok ()
  redisSetex := fun _ _ _ => .ok ()
  redisDel := fun _ => .ok ()
  newSessionId := "def"

def samplePost : Request where
  requestMethod := "POST"
  accept := some "application/json, text/event-stream"
  protocolVersion := none
  sessionId := some "abc"
  postData := some "body"

def toolsList : Json := .obj [("jsonrpc", .str "2.0"), ("id", .num "1"), ("method", .str "tools/list")]

theorem toolsList_validated : Validated (sampleEnv toolsList) samplePost := by
  have hexecuted : (serve (sampleEnv toolsList) samplePost).executed.length = 1 := by decide +kernel
  refine executed_validated fun hnone => ?_
  rw [hnone] at hexecuted
  cases hexecuted

end Mports.McpRequest
