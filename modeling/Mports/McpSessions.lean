import Mports.ExpiringStore
import Mports.McpRequest

set_option autoImplicit false

/-!
mcp.cgi: the sessions of a whole history of requests. Every request is a process of its own, and they
share a Redis that answers one command at a time.
-/
namespace Mports.McpSessions
open ExpiringStore McpMessages McpRequest

/-- What `redis_command` is called with. -/
inductive Command where
  | get (key : String)
  | expire (key : String)
  | setex (sessionId protocolVersion : String) (clientInfo : Json)
  | del (key : String)

/-- The `clientInfo` of `initialize`, where it is an object. -/
def clientInfo (fields : List (String × Json)) : Json :=
  match get fields "clientInfo" with
  | some (.obj client) => .obj client
  | _ => .obj []

section Commands
variable (env : Env)

def validationCommands (sessionId : String) : List Command :=
  if validSessionIdSyntax sessionId then
    .get (sessionKey sessionId) :: match env.redisGet (sessionKey sessionId) with
      | .ok (some _) => [.expire (sessionKey sessionId)]
      | _ => []
  else []

def headerCommands (request : Request) : List Command :=
  if requestSessionId request = "" then [] else validationCommands env (requestSessionId request)

def sseCommands (request : Request) : List Command :=
  if !validateMcpProtocolHeader request then [] else headerCommands env request

def deleteCommands (request : Request) : List Command :=
  if requestSessionId request = "" then []
  else if !validSessionIdSyntax (requestSessionId request) then []
  else [.del (sessionKey (requestSessionId request))]

def initializeCommands (params : Json) : List Command :=
  match params with
  | .obj fields =>
    [.setex env.newSessionId (negotiatedProtocolVersion (get fields "protocolVersion")) (clientInfo fields)]
  | _ => []

def dispatchCommands (req : Json) : List Command :=
  match req with
  | .obj fields =>
    if (get fields "jsonrpc").any fun v => v.is "2.0" then
      match get fields "method" with
      | none => []
      | some method =>
        if method.is "initialize" then match get fields "id" with
          | none => []
          | some _ => initializeCommands env (Json.orElse (.obj []) (get fields "params"))
        else []
    else []
  | _ => []

def messageCommands (request : Request) (req : Json) : List Command :=
  if isInitializeRequest req then dispatchCommands env req
  else if !validateMcpProtocolHeader request then []
  else match req with
    | .arr batch => if batchContainsInitialize batch then [] else headerCommands env request
    | _ => headerCommands env request

def postCommands (request : Request) : List Command :=
  let body := request.postData.getD ""
  if body = "" then []
  else match env.decode body with
    | .error _ => []
    | .ok req => if !req.isRef then [] else messageCommands env request req

/-- The commands of a whole request, in their order; an answer decides what is asked next. -/
def commands (request : Request) : List Command :=
  if request.requestMethod = "GET" then
    if !acceptsContentType request "text" "event-stream" then [] else sseCommands env request
  else if request.requestMethod = "DELETE" then
    if !validateMcpProtocolHeader request then [] else deleteCommands request
  else if request.requestMethod ≠ "POST" then []
  else if !(acceptsContentType request "application" "json" &&
      acceptsContentType request "text" "event-stream") then []
  else postCommands env request

end Commands

section Agreement

/-- The same but for what no command of a list asks. -/
structure Agree (env env' : Env) (cs : List Command) : Prop where
  decode : env.decode = env'.decode
  interpolate : env.interpolate = env'.interpolate
  tool : env.tool = env'.tool
  newSessionId : env.newSessionId = env'.newSessionId
  get : ∀ key, .get key ∈ cs → env.redisGet key = env'.redisGet key
  expire : ∀ key, .expire key ∈ cs → env.redisExpire key = env'.redisExpire key
  setex : ∀ sessionId version client, .setex sessionId version client ∈ cs →
    env.redisSetex sessionId version client = env'.redisSetex sessionId version client
  del : ∀ key, .del key ∈ cs → env.redisDel key = env'.redisDel key

variable {env env' : Env} {page : Page} {request : Request}

theorem validateSession_agrees {sessionId : String} (h : Agree env env' (validationCommands env sessionId)) :
    validateSession env page sessionId = validateSession env' page sessionId := by
  unfold validateSession
  split
  · rename_i hvalid
    unfold validationCommands at h
    rw [if_pos hvalid] at h
    rw [← h.get _ (List.mem_cons_self ..)]
    cases hget : env.redisGet (sessionKey sessionId) with
    | error message => rfl
    | ok state =>
      cases state with
      | none => rfl
      | some state =>
        have hexpire := h.expire (sessionKey sessionId) (by rw [hget]; simp)
        rw [hexpire]
  · rfl

theorem validateSessionHeader_agrees (h : Agree env env' (headerCommands env request)) :
    validateSessionHeader env page request = validateSessionHeader env' page request := by
  unfold validateSessionHeader
  unfold headerCommands at h
  split
  · rfl
  · rename_i hid
    rw [if_neg hid] at h
    exact validateSession_agrees h

theorem handleSessionDelete_agrees (h : Agree env env' (deleteCommands request)) :
    handleSessionDelete env page request = handleSessionDelete env' page request := by
  unfold handleSessionDelete
  unfold deleteCommands at h
  split_ifs at h ⊢
  · rfl
  · rfl
  · rw [h.del _ (List.mem_singleton_self _)]

theorem handleSseGet_agrees (h : Agree env env' (sseCommands env request)) :
    handleSseGet env page request = handleSseGet env' page request := by
  unfold handleSseGet
  unfold sseCommands headerCommands at h
  split_ifs at h ⊢ with hversion hid
  · rfl
  · rfl
  · rw [validateSession_agrees h]

theorem handleInitialize_agrees {id params : Json} (h : Agree env env' (initializeCommands env params)) :
    handleInitialize env page id params = handleInitialize env' page id params := by
  unfold handleInitialize
  cases params with
  | obj fields =>
    have hsetex := h.setex env.newSessionId (negotiatedProtocolVersion (get fields "protocolVersion"))
      (clientInfo fields) (List.mem_singleton_self _)
    dsimp only
    rw [← h.newSessionId]
    -- the client of the handler is `clientInfo` once that is unfolded
    erw [hsetex]
    rfl
  | _ => rfl

theorem dispatchRequest_agrees {req : Json} (h : Agree env env' (dispatchCommands env req)) :
    dispatchRequest env page req = dispatchRequest env' page req := by
  cases req with
  | obj fields =>
    by_cases hversion : ((get fields "jsonrpc").any fun v => v.is "2.0") = true
    · simp only [dispatchRequest, dispatchCommands, hversion, if_true] at h ⊢
      cases hmethod : get fields "method" with
      | none => simp
      | some method =>
        by_cases hfirst : method.is "initialize" = true
        · cases hid : get fields "id" with
          | none => simp [hfirst]
          | some id =>
            simp only [hmethod, hfirst, if_true, hid] at h ⊢
            exact handleInitialize_agrees h
        · simp only [hfirst, if_false, handleToolsCall, h.tool, h.interpolate, Bool.false_eq_true]
    · simp [dispatchRequest, hversion]
  | _ => rfl

theorem dispatchCommands_other {req : Json} (h : isInitializeRequest req = false) : dispatchCommands env req = [] := by
  cases req with
  | obj fields =>
    simp only [dispatchCommands]
    split_ifs with hversion
    · cases hmethod : get fields "method" with
      | none => rfl
      | some method =>
        have hother : method.is "initialize" = false := by simpa [isInitializeRequest, hmethod] using h
        simp [hother]
    · rfl
  | _ => rfl

theorem Agree.mono {cs cs' : List Command} (h : Agree env env' cs) (hsubset : ∀ c ∈ cs', c ∈ cs) :
    Agree env env' cs' :=
  ⟨h.decode, h.interpolate, h.tool, h.newSessionId, fun key hc => h.get key (hsubset _ hc),
    fun key hc => h.expire key (hsubset _ hc), fun _ _ _ hc => h.setex _ _ _ (hsubset _ hc),
    fun key hc => h.del key (hsubset _ hc)⟩

theorem dispatchAll_agrees {cs : List Command} (h : Agree env env' cs) {batch : List Json}
    (hbatch : ∀ req ∈ batch, isInitializeRequest req = false) :
    dispatchAll env page batch = dispatchAll env' page batch := by
  induction batch generalizing page with
  | nil => rfl
  | cons req rest ih =>
    obtain ⟨hreq, hrest⟩ := List.forall_mem_cons.1 hbatch
    have hfirst : dispatchRequest env page req = dispatchRequest env' page req :=
      dispatchRequest_agrees (h.mono (by rw [dispatchCommands_other hreq]; simp))
    simp only [dispatchAll, hfirst]
    split_ifs
    · rfl
    · exact ih hrest

theorem serveBatch_agrees {cs : List Command} (h : Agree env env' cs) {batch : List Json} :
    serveBatch env page request batch = serveBatch env' page request batch := by
  unfold serveBatch
  split_ifs with hempty hversion hfirst
  · rfl
  · rfl
  · rfl
  · have hbatch : ∀ req ∈ batch, isInitializeRequest req = false := by
      simpa [batchContainsInitialize, List.any_eq_false] using hfirst
    rw [dispatchAll_agrees h hbatch]

theorem serveMessage_agrees {req : Json} (h : Agree env env' (messageCommands env request req)) :
    serveMessage env page request req = serveMessage env' page request req := by
  unfold serveMessage
  unfold messageCommands at h
  by_cases hlone : isInitializeRequest req = true
  · rw [if_pos hlone] at h
    cases req with
    | obj fields => simp [hlone, dispatchRequest_agrees h]
    | _ => cases hlone
  · rw [Bool.not_eq_true] at hlone
    by_cases hversion : validateMcpProtocolHeader request = true
    · simp only [hlone, hversion, Bool.false_eq_true, if_false, Bool.not_true] at h ⊢
      cases req with
      | arr batch =>
        by_cases hbatch : batchContainsInitialize batch = true
        · simp [hbatch, serveBatch_agrees h]
        · simp only [hbatch, Bool.false_eq_true, if_false, Bool.or_false] at h ⊢
          rw [validateSessionHeader_agrees h, serveBatch_agrees h]
      | obj fields =>
        have hdispatch : ∀ p, dispatchRequest env p (.obj fields) = dispatchRequest env' p (.obj fields) := fun p =>
          dispatchRequest_agrees (h.mono (by rw [dispatchCommands_other hlone]; simp))
        simp only [Bool.or_self, Bool.false_eq_true, if_false]
        rw [validateSessionHeader_agrees h, hdispatch]
      | _ =>
        simp only [Bool.or_self, Bool.false_eq_true, if_false]
        rw [validateSessionHeader_agrees h]
    · simp [hlone, hversion]

theorem servePost_agrees (h : Agree env env' (postCommands env request)) :
    servePost env page request = servePost env' page request := by
  simp only [servePost]
  simp only [postCommands] at h
  rw [← h.decode]
  split_ifs at h ⊢ with hbody
  · rfl
  · cases hdecode : env.decode (request.postData.getD "") with
    | error message => rfl
    | ok req =>
      rw [hdecode] at h
      dsimp only at h ⊢
      split_ifs at h ⊢ with href
      · rfl
      · exact serveMessage_agrees h

theorem serve_agrees (h : Agree env env' (commands env request)) : serve env request = serve env' request := by
  unfold serve
  unfold commands at h
  split_ifs at h ⊢ with hget haccept hdelete hversion hpost haccepts
  · rfl
  · exact handleSseGet_agrees h
  · rfl
  · exact handleSessionDelete_agrees h
  · rfl
  · rfl
  · exact servePost_agrees h

end Agreement

section Questions
variable {env : Env} {request : Request}

/-- Every command of a session is that of the header, that of a deletion or that of a new session. -/
theorem commands_cases (env : Env) (request : Request) : commands env request = [] ∨
    commands env request = headerCommands env request ∨ commands env request = deleteCommands request ∨
    commands env request = postCommands env request ∧ request.requestMethod = "POST" := by
  unfold commands
  split_ifs with hget haccept hdelete hversion hpost haccepts
  · exact .inl rfl
  · unfold sseCommands
    split_ifs
    · exact .inl rfl
    · exact .inr (.inl rfl)
  · exact .inl rfl
  · exact .inr (.inr (.inl rfl))
  · exact .inl rfl
  · exact .inl rfl
  · exact .inr (.inr (.inr ⟨rfl, not_not.1 hpost⟩))

theorem header_commands {c : Command} (h : c ∈ headerCommands env request) :
    c = .get (sessionKey (requestSessionId request)) ∨ c = .expire (sessionKey (requestSessionId request)) := by
  unfold headerCommands validationCommands at h
  split_ifs at h
  · cases h
  · rw [List.mem_cons] at h
    obtain rfl | h := h
    · exact .inl rfl
    · split at h
      · exact .inr (List.mem_singleton.1 h)
      · cases h
  · cases h

/-- A lone `initialize` request with an id, well formed but for its parameters. -/
structure Initializes (env : Env) (request : Request) : Prop where
  post : request.requestMethod = "POST"
  message : ∃ fields id, env.decode (request.postData.getD "") = .ok (.obj fields) ∧
    isInitializeRequest (.obj fields) = true ∧ get fields "id" = some id

theorem dispatch_setex {fields : List (String × Json)} {sessionId version : String} {client : Json}
    (h : .setex sessionId version client ∈ dispatchCommands env (.obj fields)) :
    sessionId = env.newSessionId ∧ ∃ id, get fields "id" = some id := by
  unfold dispatchCommands at h
  dsimp only at h
  split_ifs at h
  · split at h
    · cases h
    · split_ifs at h
      · split at h
        · cases h
        · rename_i id hid
          unfold initializeCommands at h
          split at h
          · cases List.mem_singleton.1 h
            exact ⟨rfl, id, hid⟩
          · cases h
      · cases h
  · cases h

theorem dispatch_length (req : Json) : (dispatchCommands env req).length ≤ 1 := by
  unfold dispatchCommands
  split
  · split_ifs
    · split
      · exact Nat.zero_le _
      · split_ifs
        · split
          · exact Nat.zero_le _
          · unfold initializeCommands
            split <;> simp
        · exact Nat.zero_le _
    · exact Nat.zero_le _
  · exact Nat.zero_le _

theorem message_setex {req : Json} {sessionId version : String} {client : Json}
    (h : .setex sessionId version client ∈ messageCommands env request req) :
    ∃ fields, req = .obj fields ∧ isInitializeRequest req = true := by
  have hheader : .setex sessionId version client ∉ headerCommands env request := fun hmem => by
    rcases header_commands hmem with heq | heq <;> cases heq
  unfold messageCommands at h
  split_ifs at h with hlone hversion
  · cases req with
    | obj fields => exact ⟨fields, rfl, hlone⟩
    | _ => cases hlone
  · cases h
  · split at h
    · split_ifs at h
      · cases h
      · exact absurd h hheader
    · exact absurd h hheader

theorem setex_dispatched {sessionId version : String} {client : Json}
    (h : .setex sessionId version client ∈ commands env request) : request.requestMethod = "POST" ∧
      ∃ fields, env.decode (request.postData.getD "") = .ok (.obj fields) ∧ isInitializeRequest (.obj fields) = true ∧
        commands env request = dispatchCommands env (.obj fields) := by
  rcases commands_cases env request with hnone | hsame | hdelete | ⟨hpost, hmethod⟩
  · rw [hnone] at h
    cases h
  · rw [hsame] at h
    rcases header_commands h with heq | heq <;> cases heq
  · rw [hdelete] at h
    unfold deleteCommands at h
    split_ifs at h
    · cases h
    · cases h
    · cases List.mem_singleton.1 h
  · refine ⟨hmethod, ?_⟩
    rw [hpost] at h ⊢
    simp only [postCommands] at h ⊢
    split_ifs at h ⊢ with hbody
    · cases h
    · cases hdecode : env.decode (request.postData.getD "") with
      | error message =>
        rw [hdecode] at h
        cases h
      | ok req =>
        rw [hdecode] at h
        dsimp only at h ⊢
        split_ifs at h ⊢
        · cases h
        · obtain ⟨fields, rfl, hlone⟩ := message_setex h
          exact ⟨fields, rfl, hlone, if_pos hlone⟩

theorem setex_initializes {sessionId version : String} {client : Json}
    (h : .setex sessionId version client ∈ commands env request) :
    sessionId = env.newSessionId ∧ Initializes env request := by
  obtain ⟨hpost, fields, hdecode, hlone, hcommands⟩ := setex_dispatched h
  rw [hcommands] at h
  obtain ⟨hsession, id, hid⟩ := dispatch_setex h
  exact ⟨hsession, hpost, fields, id, hdecode, hlone, hid⟩

theorem setex_alone {sessionId version : String} {client : Json}
    (h : .setex sessionId version client ∈ commands env request) : (commands env request).length ≤ 1 := by
  obtain ⟨-, fields, -, -, hcommands⟩ := setex_dispatched h
  rw [hcommands]
  exact dispatch_length _

theorem validated_commands (h : (validateSessionHeader env .start request).2 = true) :
    headerCommands env request = [.get (sessionKey (requestSessionId request)), .expire (sessionKey (requestSessionId request))] ∧
      (∃ state, env.redisGet (sessionKey (requestSessionId request)) = .ok (some state)) ∧
      env.redisExpire (sessionKey (requestSessionId request)) = .ok () := by
  unfold validateSessionHeader validateSession at h
  unfold headerCommands validationCommands
  split_ifs at h ⊢ with hid hvalid
  · split at h
    · cases h
    · cases h
    · rename_i state hget
      rw [hget]
      cases hexpire : env.redisExpire (sessionKey (requestSessionId request)) with
      | error message => simp [hexpire] at h
      | ok done => exact ⟨rfl, ⟨state, rfl⟩, rfl⟩

theorem serveMessage_commands {req : Json} (h : (serveMessage env .start request req).executed ≠ []) :
    messageCommands env request req = headerCommands env request := by
  have hvalidated := serveMessage_validated h
  unfold messageCommands
  by_cases hlone : isInitializeRequest req = true
  · -- a lone initialize runs nothing
    cases req with
    | obj fields => exact absurd (by simp [serveMessage, hlone, dispatch_initialize_executed]) h
    | _ => cases hlone
  · rw [Bool.not_eq_true] at hlone
    simp only [hlone, hvalidated.version, Bool.not_true, Bool.false_eq_true, if_false]
    cases req with
    | arr batch =>
      by_cases hbatch : batchContainsInitialize batch = true
      · exact absurd (by simp [serveMessage, hlone, hvalidated.version, hbatch, serveBatch_initialize hbatch]) h
      · simp only [hbatch, Bool.false_eq_true, if_false]
    | _ => rfl

theorem servePost_commands (h : (servePost env .start request).executed ≠ []) :
    postCommands env request = headerCommands env request := by
  simp only [servePost] at h
  simp only [postCommands]
  split_ifs at h ⊢ with hbody
  · exact absurd rpcError_executed h
  · cases hdecode : env.decode (request.postData.getD "") with
    | error message =>
      rw [hdecode] at h
      exact absurd rpcError_executed h
    | ok req =>
      rw [hdecode] at h
      dsimp only at h ⊢
      split_ifs at h ⊢ with href
      · exact absurd rpcError_executed h
      · exact serveMessage_commands h

theorem executed_commands (h : (serve env request).executed ≠ []) :
    commands env request = headerCommands env request ∧ (validateSessionHeader env .start request).2 = true := by
  unfold serve at h
  unfold commands
  split_ifs at h ⊢ with hget haccept hdelete hversion hpost haccepts
  · exact absurd rfl h
  · exact absurd handleSseGet_executed h
  · exact absurd rfl h
  · exact absurd handleSessionDelete_executed h
  · exact absurd rfl h
  · exact absurd rfl h
  · exact ⟨servePost_commands h, (servePost_validated h).header⟩

end Questions

section NotFound
variable {env : Env} {page : Page} {request : Request}

/-- A page with the status of an unknown session. -/
def NotFound (page : Page) : Prop := ∃ reply ∈ page.printed, reply.status = some "404 Not Found"

theorem notFound_of_printed {page' : Page} (h : page'.printed = page.printed) : NotFound page' ↔ NotFound page := by
  unfold NotFound
  rw [h]

@[simp] theorem start_notFound : ¬ NotFound .start := by
  rintro ⟨reply, hmem, -⟩
  cases hmem

theorem print_notFound (status : Option String) (body : Body) :
    NotFound (page.print status body) ↔ NotFound page ∨ status = some "404 Not Found" := by
  unfold NotFound Page.print
  simp only [List.mem_append, List.mem_singleton]
  constructor
  · rintro ⟨reply, hmem | rfl, hstatus⟩
    · exact .inl ⟨reply, hmem, hstatus⟩
    · exact .inr hstatus
  · rintro (⟨reply, hmem, hstatus⟩ | hstatus)
    · exact ⟨reply, .inl hmem, hstatus⟩
    · exact ⟨_, .inr rfl, hstatus⟩

theorem print_quiet {status : Option String} (h : status ≠ some "404 Not Found") (body : Body) :
    NotFound (page.print status body) ↔ NotFound page := by
  rw [print_notFound, or_iff_left h]

theorem respond_quiet {status : Option String} (h : status ≠ some "404 Not Found") (r : Response) :
    NotFound (page.respond status r) ↔ NotFound page := by
  unfold Page.respond
  split
  · exact notFound_of_printed rfl
  · exact print_quiet h _

@[simp] theorem rpcError_quiet {id : Json} {code : ℤ} {message : String} :
    NotFound (page.rpcError id code message) ↔ NotFound page := respond_quiet (by decide) _

@[simp] theorem rpcResult_quiet {id : Json} {r : Result} : NotFound (page.rpcResult id r) ↔ NotFound page :=
  respond_quiet (by decide) _

@[simp] theorem acknowledge_quiet : NotFound page.acknowledgeNotification ↔ NotFound page := by
  unfold Page.acknowledgeNotification
  split
  · exact Iff.rfl
  · exact print_quiet (by decide) _

@[simp] theorem handleInitialize_quiet {id params : Json} : NotFound (handleInitialize env page id params) ↔ NotFound page := by
  unfold handleInitialize
  split
  · simp only
    cases env.redisSetex env.newSessionId _ _ with
    | ok done => exact rpcResult_quiet
    | error message => exact rpcError_quiet
  · exact notFound_of_printed rfl

@[simp] theorem handleToolsList_quiet {id : Json} : NotFound (handleToolsList page id) ↔ NotFound page := rpcResult_quiet

theorem toolResults_quiet {id : Json} (results : List (String × Bool)) :
    NotFound (results.foldl (fun page r => page.toolResult id r.1 r.2) page) ↔ NotFound page := by
  induction results generalizing page with
  | nil => exact Iff.rfl
  | cons r results ih => exact ih.trans rpcResult_quiet

@[simp] theorem handleToolsCall_quiet {id params : Json} : NotFound (handleToolsCall env page id params) ↔ NotFound page := by
  unfold handleToolsCall
  split
  · simp only
    split
    · split
      · exact toolResults_quiet _
      · exact rpcResult_quiet.trans (toolResults_quiet _)
    · exact rpcError_quiet
  · exact notFound_of_printed rfl

@[simp] theorem dispatchRequest_quiet {req : Json} : NotFound (dispatchRequest env page req) ↔ NotFound page := by
  cases req with
  | obj fields =>
    simp only [dispatchRequest]
    by_cases hversion : ((get fields "jsonrpc").any fun v => v.is "2.0") = true
    · simp only [hversion, if_true]
      cases get fields "method" with
      | none =>
        dsimp only
        split_ifs <;> simp
      | some method =>
        dsimp only
        split_ifs <;> cases get fields "id" <;> simp
    · simp only [hversion, Bool.false_eq_true, if_false, rpcError_quiet]
  | _ => exact rpcError_quiet

theorem dispatchAll_quiet (batch : List Json) : NotFound (dispatchAll env page batch) ↔ NotFound page := by
  induction batch generalizing page with
  | nil => exact Iff.rfl
  | cons req rest ih =>
    simp only [dispatchAll]
    split_ifs
    · exact dispatchRequest_quiet
    · exact ih.trans dispatchRequest_quiet

@[simp] theorem serveBatch_quiet {batch : List Json} : NotFound (serveBatch env page request batch) ↔ NotFound page := by
  have hall : NotFound (dispatchAll env { page with collectedResponses := [], collectResponses := true } batch) ↔
      NotFound page := dispatchAll_quiet batch
  simp only [serveBatch]
  split_ifs
  · exact rpcError_quiet
  · exact rpcError_quiet
  · exact rpcError_quiet
  · exact hall
  · exact (print_quiet (by decide) _).trans hall
  · exact (print_quiet (by decide) _).trans hall

theorem httpJsonError_quiet {status : String} (h : status ≠ "404 Not Found") (code : ℤ) (message : String) :
    NotFound (httpJsonError page status code message) ↔ NotFound page :=
  print_quiet (fun heq => h (Option.some.inj heq)) _

def Asks (env : Env) (request : Request) : Prop := .get (sessionKey (requestSessionId request)) ∈ commands env request

theorem validateSession_notFound {sessionId : String} : NotFound (validateSession env .start sessionId).1 ↔
    .get (sessionKey sessionId) ∈ validationCommands env sessionId ∧ env.redisGet (sessionKey sessionId) = .ok none := by
  unfold validateSession validationCommands
  split_ifs with hvalid
  · cases hget : env.redisGet (sessionKey sessionId) with
    | error message => simp [httpJsonError_quiet]
    | ok state =>
      cases state with
      | none => simp [httpJsonError, print_notFound]
      | some state =>
        cases env.redisExpire (sessionKey sessionId) with
        | error message => simp [httpJsonError_quiet]
        | ok done =>
          have hquiet : NotFound (Page.start.setSession sessionId) ↔ NotFound .start := notFound_of_printed rfl
          simp [hquiet]
  · simp [httpJsonError_quiet]

theorem validateSessionHeader_notFound : NotFound (validateSessionHeader env .start request).1 ↔
    .get (sessionKey (requestSessionId request)) ∈ headerCommands env request ∧
      env.redisGet (sessionKey (requestSessionId request)) = .ok none := by
  unfold validateSessionHeader headerCommands
  split_ifs
  · simp [httpJsonError_quiet]
  · exact validateSession_notFound

theorem dispatch_get {key : String} {req : Json} : .get key ∉ dispatchCommands env req := by
  unfold dispatchCommands
  split
  · split_ifs
    · split
      · nofun
      · split_ifs
        · split
          · nofun
          · unfold initializeCommands
            split <;> simp
        · nofun
    · nofun
  · nofun

theorem validated_quiet {validated : Page × Bool} {next : Page → Page} (h : ∀ p, NotFound (next p) ↔ NotFound p) :
    NotFound (if !validated.2 then validated.1 else next validated.1) ↔ NotFound validated.1 := by
  split_ifs
  · exact Iff.rfl
  · exact h _

theorem serveMessage_notFound {req : Json} : NotFound (serveMessage env .start request req) ↔
    .get (sessionKey (requestSessionId request)) ∈ messageCommands env request req ∧
      env.redisGet (sessionKey (requestSessionId request)) = .ok none := by
  unfold serveMessage messageCommands
  by_cases hlone : isInitializeRequest req = true
  · cases req with
    | obj fields => simp [hlone, dispatch_get]
    | _ => cases hlone
  · by_cases hversion : validateMcpProtocolHeader request = true
    · simp only [hlone, hversion, Bool.not_true, Bool.or_true, Bool.false_eq_true, if_false]
      cases req with
      | arr batch =>
        by_cases hbatch : batchContainsInitialize batch = true
        · simp [hbatch]
        · simp only [hbatch, Bool.or_self, Bool.false_eq_true, if_false]
          exact (validated_quiet fun _ => serveBatch_quiet).trans validateSessionHeader_notFound
      | obj fields => exact (validated_quiet fun _ => dispatchRequest_quiet).trans validateSessionHeader_notFound
      | _ => exact (validated_quiet fun _ => rpcError_quiet).trans validateSessionHeader_notFound
    · simp [hlone, hversion]

theorem servePost_notFound : NotFound (servePost env .start request) ↔
    .get (sessionKey (requestSessionId request)) ∈ postCommands env request ∧
      env.redisGet (sessionKey (requestSessionId request)) = .ok none := by
  simp only [servePost, postCommands]
  split_ifs with hbody
  · simp
  · cases env.decode (request.postData.getD "") with
    | error message => simp
    | ok req =>
      dsimp only
      split_ifs with href
      · simp
      · exact serveMessage_notFound

theorem handleSseGet_notFound : NotFound (handleSseGet env .start request) ↔
    .get (sessionKey (requestSessionId request)) ∈ sseCommands env request ∧
      env.redisGet (sessionKey (requestSessionId request)) = .ok none := by
  have hstream : ∀ p : Page, NotFound { p with printed := p.printed ++ [⟨none, none, .eventStream⟩] } ↔ NotFound p := by
    intro p
    have hprint : NotFound (({ p with sessionId := none } : Page).print none .eventStream) ↔ NotFound p :=
      print_quiet (by decide) .eventStream
    exact hprint
  unfold handleSseGet sseCommands headerCommands
  split_ifs with hversion hid
  · simp [httpJsonError_quiet]
  · exact iff_of_false (fun h => start_notFound ((hstream .start).1 h)) (by simp)
  · rw [← validateSession_notFound]
    dsimp only
    split_ifs
    · exact hstream _
    · exact Iff.rfl

/-- A 404 says that the store has been asked for the session, and has not got it. -/
theorem serve_notFound : NotFound (serve env request) ↔
    Asks env request ∧ env.redisGet (sessionKey (requestSessionId request)) = .ok none := by
  unfold serve Asks commands
  split_ifs with hget haccept hdelete hversion hpost haccepts
  · simp [httpJsonError_quiet]
  · exact handleSseGet_notFound
  · simp [httpJsonError_quiet]
  · unfold handleSessionDelete deleteCommands
    split_ifs
    · simp [httpJsonError_quiet]
    · simp [httpJsonError_quiet]
    · cases env.redisDel (sessionKey (requestSessionId request)) with
      | error message => simp [httpJsonError_quiet]
      | ok done => simp [print_quiet]
  · simp [httpJsonError_quiet]
  · simp [httpJsonError_quiet]
  · exact servePost_notFound

end NotFound

structure Process where
  env : Env
  request : Request

/-- Time passes, a process has a command carried out or fail, or Redis loses a key by itself. -/
inductive Event (ι : Type) where
  | tick (seconds : ℕ)
  | call (i : ι) (command : Command) (done : Bool)
  | lose (key : String)

section Histories

/-- A split of a longer list at one of its elements: the last one, or one before it. -/
theorem snoc_split {α : Type} {xs before after : List α} {last e : α} (h : xs ++ [last] = before ++ e :: after) :
    (xs = before ∧ last = e) ∨ ∃ after', xs = before ++ e :: after' := by
  obtain rfl | ⟨after', last', rfl⟩ := List.eq_nil_or_concat' after
  · obtain ⟨hbefore, hlast⟩ := List.append_inj' h rfl
    exact .inl ⟨hbefore, (List.cons.inj hlast).1⟩
  · rw [← List.cons_append, ← List.append_assoc] at h
    exact .inr ⟨after', (List.append_inj' h rfl).1⟩

variable {ι : Type} [DecidableEq ι] (processes : ι → Process) (encode : ι → String → Json → String) (ttl : ℕ)

/-- What a command does to the store; `encode` writes the state of a new session. -/
def Command.op (encode : String → Json → String) : Command → Option (Op String String)
  | .get _ => none
  | .expire key => some (.touch key)
  | .setex sessionId version client => some (.put (sessionKey sessionId) (encode version client))
  | .del key => some (.drop key)

def Event.op : Event ι → Option (Op String String)
  | .tick seconds => some (.tick seconds)
  | .call i command true => command.op (encode i)
  | .call _ _ false => none
  | .lose key => some (.drop key)

def ops (events : List (Event ι)) : List (Op String String) := events.filterMap (Event.op encode)

def sessions (events : List (Event ι)) : Store String String := applyAll ttl (ops encode events) .empty

def calls (i : ι) (events : List (Event ι)) : List Command :=
  events.filterMap fun
    | .call j command _ => if j = i then some command else none
    | _ => none

/-- The answer a process has to a command, where it has any: an answer can be lost where the command is done. -/
def Answered (env : Env) (live : String → Option String) (done : Bool) : Command → Prop
  | .get key => ∀ state, env.redisGet key = .ok state → done = true ∧ state = live key
  | .expire key => env.redisExpire key = .ok () → done = true
  | .setex sessionId version client => env.redisSetex sessionId version client = .ok () → done = true
  | .del key => env.redisDel key = .ok () → done = true

/-- The processes interleave in any way, each calling its own commands in their order. -/
inductive History : List (Event ι) → Prop where
  | nil : History []
  | tick {events : List (Event ι)} (seconds : ℕ) (h : History events) : History (events ++ [.tick seconds])
  | lose {events : List (Event ι)} (key : String) (h : History events) : History (events ++ [.lose key])
  | call {events : List (Event ι)} (i : ι) (command : Command) (done : Bool) (h : History events)
      (next : calls i events ++ [command] <+: commands (processes i).env (processes i).request)
      (answer : Answered (processes i).env (sessions encode ttl events).live done command) :
      History (events ++ [.call i command done])

/-- A session there is: an `initialize` request has made it, and since then it has been asked for in time again and
again, and neither deleted nor lost. -/
def Session (events : List (Event ι)) (sessionId : String) : Prop :=
  ∃ start j version client rest, events = start ++ .call j (.setex sessionId version client) true :: rest ∧
    (processes j).env.newSessionId = sessionId ∧ Initializes (processes j).env (processes j).request ∧
    Kept ttl (sessionKey sessionId) 0 (ops encode rest)

variable {processes encode ttl} {events : List (Event ι)} {i : ι}

theorem calls_append (events events' : List (Event ι)) : calls i (events ++ events') = calls i events ++ calls i events' :=
  List.filterMap_append

theorem History.ordered (h : History processes encode ttl events) (i : ι) :
    calls i events <+: commands (processes i).env (processes i).request := by
  induction h with
  | nil => exact List.nil_prefix
  | tick seconds h ih => simpa [calls_append, calls] using ih
  | lose key h ih => simpa [calls_append, calls] using ih
  | @call events j command done h hnext hanswer ih =>
    by_cases hj : j = i
    · subst hj
      simpa [calls_append, calls] using hnext
    · simpa [calls_append, calls, hj] using ih

theorem mem_calls {command : Command} : command ∈ calls i events ↔ ∃ done, .call i command done ∈ events := by
  unfold calls
  rw [List.mem_filterMap]
  constructor
  · rintro ⟨e, hmem, heq⟩
    cases e with
    | call j c done =>
      dsimp only at heq
      split_ifs at heq with hj
      cases heq
      exact ⟨done, hj ▸ hmem⟩
    | tick seconds => cases heq
    | lose key => cases heq
  · rintro ⟨done, hmem⟩
    exact ⟨_, hmem, if_pos rfl⟩

theorem History.own (h : History processes encode ttl events) {command : Command} {done : Bool}
    (hmem : .call i command done ∈ events) : command ∈ commands (processes i).env (processes i).request :=
  (h.ordered i).subset (mem_calls.2 ⟨done, hmem⟩)

theorem History.answered (h : History processes encode ttl events) {before after : List (Event ι)} {command : Command}
    {done : Bool} (hsplit : events = before ++ .call i command done :: after) :
    History processes encode ttl before ∧ Answered (processes i).env (sessions encode ttl before).live done command := by
  induction h generalizing after with
  | nil => simp at hsplit
  | tick seconds h ih =>
    obtain ⟨-, heq⟩ | ⟨after', hbefore⟩ := snoc_split hsplit
    · cases heq
    · exact ih hbefore
  | lose key h ih =>
    obtain ⟨-, heq⟩ | ⟨after', hbefore⟩ := snoc_split hsplit
    · cases heq
    · exact ih hbefore
  | call j command done h hnext hanswer ih =>
    obtain ⟨rfl, heq⟩ | ⟨after', hbefore⟩ := snoc_split hsplit
    · cases heq
      exact ⟨h, hanswer⟩
    · exact ih hbefore

theorem sessionKey_injective {sessionId sessionId' : String} (h : sessionKey sessionId = sessionKey sessionId') :
    sessionId = sessionId' := by
  unfold sessionKey at h
  exact (String.append_right_inj _).1 h

omit [DecidableEq ι] in
theorem op_put {e : Event ι} {key state : String} (h : e.op encode = some (.put key state)) :
    ∃ j sessionId version client, e = .call j (.setex sessionId version client) true ∧
      key = sessionKey sessionId ∧ state = encode j version client := by
  cases e with
  | tick seconds => cases h
  | lose key => cases h
  | call j command done =>
    cases done with
    | false => cases h
    | true => cases command with
      | setex sessionId version client =>
        cases h
        exact ⟨j, sessionId, version, client, rfl, rfl, rfl⟩
      | _ => cases h

theorem History.live_iff (h : History processes encode ttl events) (sessionId : String) :
    (∃ state, (sessions encode ttl events).live (sessionKey sessionId) = some state) ↔
      Session processes encode ttl events sessionId := by
  unfold sessions
  simp only [ExpiringStore.live_iff]
  constructor
  · rintro ⟨state, opsBefore, opsAfter, hops, hkept⟩
    obtain ⟨start, later, rfl, -, hlater⟩ := List.filterMap_eq_append_iff.1 hops
    obtain ⟨between, e, rest, rfl, -, he, hrest⟩ := List.filterMap_eq_cons_iff.1 hlater
    obtain ⟨j, sid, version, client, rfl, hkey, -⟩ := op_put he
    obtain rfl := sessionKey_injective hkey
    have hmem : .call j (.setex sessionId version client) true ∈
        start ++ (between ++ .call j (.setex sessionId version client) true :: rest) := by simp
    obtain ⟨hid, hinitializes⟩ := setex_initializes (h.own hmem)
    refine ⟨start ++ between, j, version, client, rest, by simp, hid.symm, hinitializes, ?_⟩
    rw [← hrest] at hkept
    exact hkept
  · rintro ⟨start, j, version, client, rest, rfl, -, -, hkept⟩
    exact ⟨encode j version client, ops encode start, ops encode rest, by simp [ops, Event.op, Command.op], hkept⟩

theorem History.asked (h : History processes encode ttl events) {before after : List (Event ι)} {sessionId : String}
    {done : Bool} (hget : events = before ++ .call i (.get (sessionKey sessionId)) done :: after) {state : Option String}
    (hanswer : (processes i).env.redisGet (sessionKey sessionId) = .ok state) :
    done = true ∧ (state.isSome ↔ Session processes encode ttl before sessionId) := by
  obtain ⟨hbefore, hanswered⟩ := h.answered hget
  obtain ⟨hdone, rfl⟩ := hanswered state hanswer
  exact ⟨hdone, by rw [← hbefore.live_iff sessionId, Option.isSome_iff_exists]⟩

theorem calls_cons {command : Command} {rest : List Command} (h : calls i events = command :: rest) :
    ∃ before done after, events = before ++ .call i command done :: after ∧ calls i after = rest := by
  obtain ⟨before, e, after, rfl, -, he, hrest⟩ := List.filterMap_eq_cons_iff.1 h
  cases e with
  | call j c done =>
    dsimp only at he
    split_ifs at he with hj
    cases he
    exact ⟨before, done, after, by rw [hj], hrest⟩
  | tick seconds => cases he
  | lose key => cases he

def initializeMessage : Json := .obj [("jsonrpc", .str "2.0"), ("id", .num "1"), ("method", .str "initialize")]

/-- A message to serve, with what Redis answers a `GET`. -/
def sampleProcess (message : Json) (state : Option String) (drawn requestMethod : String) : Process where
  env := { sampleEnv message with redisGet := fun _ => .ok state, newSessionId := drawn }
  request := { samplePost with requestMethod := requestMethod }

def sampleProcesses : Fin 4 → Process
  | 0 => sampleProcess initializeMessage none "abc" "POST"
  | 1 => sampleProcess toolsList (some "2025-06-18") "one" "POST"
  | 2 => sampleProcess .null none "two" "DELETE"
  | 3 => sampleProcess toolsList none "three" "POST"

def sampleEvents : List (Event (Fin 4)) :=
  [.call 0 (.setex "abc" "2025-06-18" (.obj [])) true, .tick 60, .call 1 (.get (sessionKey "abc")) true,
    .call 1 (.expire (sessionKey "abc")) true, .call 2 (.del (sessionKey "abc")) true, .call 3 (.get (sessionKey "abc")) true]

theorem sample_history : History sampleProcesses (fun _ version _ => version) 86400 sampleEvents := by
  have hcreated : History sampleProcesses (fun _ version _ => version) 86400 _ :=
    .call 0 (.setex "abc" "2025-06-18" (.obj [])) true .nil (List.prefix_refl _) fun _ => rfl
  have hfound : History sampleProcesses (fun _ version _ => version) 86400 _ :=
    .call 1 (.get (sessionKey "abc")) true (hcreated.tick 60) ⟨[.expire (sessionKey "abc")], rfl⟩ fun _ hstate =>
      ⟨rfl, (Except.ok.inj hstate).symm.trans (by decide +kernel)⟩
  have hrefreshed : History sampleProcesses (fun _ version _ => version) 86400 _ :=
    .call 1 (.expire (sessionKey "abc")) true hfound (List.prefix_refl _) fun _ => rfl
  have hdeleted : History sampleProcesses (fun _ version _ => version) 86400 _ :=
    .call 2 (.del (sessionKey "abc")) true hrefreshed (List.prefix_refl _) fun _ => rfl
  exact .call 3 (.get (sessionKey "abc")) true hdeleted ⟨[], rfl⟩ fun _ hstate =>
    ⟨rfl, (Except.ok.inj hstate).symm.trans (by decide +kernel)⟩

/-- However the requests interleave and Redis fails, a handler runs only for a request that has found its session made
by an `initialize` request and kept since, and that has then put off its end. -/
theorem handler_session (h : History processes encode ttl events)
    (finished : calls i events = commands (processes i).env (processes i).request)
    (hexecuted : (serve (processes i).env (processes i).request).executed ≠ []) :
    ∃ before between after, events = before ++
        .call i (.get (sessionKey (requestSessionId (processes i).request))) true ::
          (between ++ .call i (.expire (sessionKey (requestSessionId (processes i).request))) true :: after) ∧
      Session processes encode ttl before (requestSessionId (processes i).request) := by
  obtain ⟨hcommands, hheader⟩ := executed_commands hexecuted
  obtain ⟨hpair, ⟨state, hget⟩, hexpire⟩ := validated_commands hheader
  obtain ⟨before, done, later, hbefore, hlater⟩ := calls_cons (finished.trans (hcommands.trans hpair))
  obtain ⟨between, refreshed, after, rfl, -⟩ := calls_cons hlater
  obtain ⟨rfl, hsession⟩ := h.asked hbefore hget
  have hsplit : events = (before ++ .call i (.get (sessionKey (requestSessionId (processes i).request))) true :: between) ++
      .call i (.expire (sessionKey (requestSessionId (processes i).request))) refreshed :: after := by
    rw [hbefore, List.append_assoc, List.cons_append]
  have hanswered : Answered (processes i).env _ refreshed (.expire (sessionKey (requestSessionId (processes i).request))) :=
    (h.answered hsplit).2
  obtain rfl := hanswered hexpire
  exact ⟨before, between, after, hbefore, hsession.1 rfl⟩

theorem sample_session : ∃ before between after, sampleEvents = before ++
        .call 1 (.get (sessionKey "abc")) true :: (between ++ .call 1 (.expire (sessionKey "abc")) true :: after) ∧
      Session sampleProcesses (fun _ version _ => version) 86400 before "abc" := by
  have hlength : (serve (sampleProcesses 1).env (sampleProcesses 1).request).executed.length = 1 := by decide +kernel
  refine handler_session (i := 1) sample_history rfl fun hnone => ?_
  rw [hnone] at hlength
  cases hlength

/-- A request that Redis answers is told 404 just where nobody has made its session, or it has not been kept. -/
theorem notFound_iff (h : History processes encode ttl events) {before after : List (Event ι)} {done : Bool}
    (hget : events = before ++ .call i (.get (sessionKey (requestSessionId (processes i).request))) done :: after)
    {state : Option String}
    (hanswer : (processes i).env.redisGet (sessionKey (requestSessionId (processes i).request)) = .ok state) :
    NotFound (serve (processes i).env (processes i).request) ↔
      ¬ Session processes encode ttl before (requestSessionId (processes i).request) := by
  have hasks : Asks (processes i).env (processes i).request := h.own (hget ▸ List.mem_append_right before (List.mem_cons_self ..))
  rw [serve_notFound, and_iff_right hasks, ← (h.asked hget hanswer).2, hanswer]
  cases state <;> simp

theorem sample_notFound : NotFound (serve (sampleProcesses 3).env (sampleProcesses 3).request) ↔
    ¬ Session sampleProcesses (fun _ version _ => version) 86400 (sampleEvents.take 5) "abc" := by
  have hget : sampleEvents = sampleEvents.take 5 ++ .call 3 (.get (sessionKey "abc")) true :: [] := rfl
  exact notFound_iff (i := 3) sample_history hget rfl

def Fresh (processes : ι → Process) : Prop := ∀ j j', (processes j).env.newSessionId = (processes j').env.newSessionId → j = j'

omit [DecidableEq ι] in
theorem Session.start {sessionId : String} (h : Session processes encode ttl events sessionId) :
    ∃ start j version client rest, events = start ++ .call j (.setex sessionId version client) true :: rest ∧
      (processes j).env.newSessionId = sessionId ∧ .lose (sessionKey sessionId) ∉ rest ∧
      ∀ k, .call k (.del (sessionKey sessionId)) true ∉ rest := by
  obtain ⟨start, j, version, client, rest, rfl, hid, -, hkept⟩ := h
  have hdrop : .drop (sessionKey sessionId) ∉ ops encode rest := kept_drop hkept
  refine ⟨start, j, version, client, rest, rfl, hid, fun hmem => hdrop ?_, fun k hmem => hdrop ?_⟩
  · exact List.mem_filterMap.2 ⟨_, hmem, rfl⟩
  · exact List.mem_filterMap.2 ⟨_, hmem, rfl⟩

theorem History.once (h : History processes encode ttl events) {before between after : List (Event ι)} {c : Command}
    {sessionId version : String} {client : Json} {done done' : Bool} : events ≠ before ++ .call i c done' ::
      (between ++ .call i (.setex sessionId version client) done :: after) := by
  rintro rfl
  have hcalls : calls i (before ++ .call i c done' :: (between ++ .call i (.setex sessionId version client) done :: after)) =
      calls i before ++ c :: (calls i between ++ .setex sessionId version client :: calls i after) := by
    simp [calls]
  have hmem : .call i (.setex sessionId version client) done ∈
      before ++ .call i c done' :: (between ++ .call i (.setex sessionId version client) done :: after) := by simp
  have hlength := Nat.le_trans (h.ordered i).length_le (setex_alone (h.own hmem))
  rw [hcalls] at hlength
  simp only [List.length_append, List.length_cons] at hlength
  omega

theorem deleted_gone (fresh : Fresh processes) (h : History processes encode ttl events)
    {start rest : List (Event ι)} {j k : ι} {sessionId version : String} {client : Json} {made : Bool}
    (hmade : events = start ++ .call j (.setex sessionId version client) made :: rest)
    (hdeleted : .call k (.del (sessionKey sessionId)) true ∈ rest) : ¬ Session processes encode ttl events sessionId := by
  rintro hsession
  obtain ⟨start', j', version', client', rest', hsplit, hid, -, hkept⟩ := hsession.start
  have hmem : .call j (.setex sessionId version client) made ∈ events := by
    rw [hmade]
    simp
  have hdrawn : sessionId = (processes j).env.newSessionId := (setex_initializes (h.own hmem)).1
  obtain rfl := fresh j' j (hid.trans hdrawn)
  have hnot : ∀ before, rest' ≠ before ++ rest := fun before heq => hkept k (heq ▸ List.mem_append_right before hdeleted)
  obtain ⟨mid, hstart, heq⟩ | ⟨mid, hstart, heq⟩ := List.append_eq_append_iff.1 (hmade.symm.trans hsplit)
  · cases mid with
    | nil => exact hnot [] (List.cons.inj heq).2.symm
    | cons first mid =>
      obtain ⟨rfl, hrest⟩ := List.cons.inj heq
      have hagain : events = start ++ .call j' (.setex sessionId version client) made ::
          (mid ++ .call j' (.setex sessionId version' client') true :: rest') := by
        rw [hmade, hrest]
        rfl
      exact h.once hagain
  · cases mid with
    | nil => exact hnot [] (List.cons.inj heq).2
    | cons first mid =>
      refine hnot (mid ++ [.call j' (.setex sessionId version client) made]) ?_
      rw [(List.cons.inj heq).2, List.append_assoc]
      rfl

/-- Where no id is drawn twice, a session that has been deleted runs no handler any more. -/
theorem deleted_refused (fresh : Fresh processes) (h : History processes encode ttl events)
    {start between later after : List (Event ι)} {j k : ι} {version : String} {client : Json} {made done : Bool}
    (hsplit : events = start ++ .call j (.setex (requestSessionId (processes i).request) version client) made :: (between ++
      .call k (.del (sessionKey (requestSessionId (processes i).request))) true :: (later ++
        .call i (.get (sessionKey (requestSessionId (processes i).request))) done :: after))) :
    (serve (processes i).env (processes i).request).executed = [] ∧
      ∀ state, (processes i).env.redisGet (sessionKey (requestSessionId (processes i).request)) = .ok state →
        NotFound (serve (processes i).env (processes i).request) := by
  have hget : events = (start ++ .call j (.setex (requestSessionId (processes i).request) version client) made :: (between ++
      .call k (.del (sessionKey (requestSessionId (processes i).request))) true :: later)) ++
        .call i (.get (sessionKey (requestSessionId (processes i).request))) done :: after := by
    rw [hsplit]
    simp
  have hgone := deleted_gone fresh (h.answered hget).1 rfl (List.mem_append_right between (List.mem_cons_self ..))
  have hnone : ∀ state, (processes i).env.redisGet (sessionKey (requestSessionId (processes i).request)) = .ok state →
      state = none := fun state hanswer => by
    cases state with
    | none => rfl
    | some state => exact absurd ((h.asked hget hanswer).2.1 rfl) hgone
  constructor
  · by_contra hexecuted
    obtain ⟨-, ⟨state, hsome⟩, -⟩ := validated_commands (executed_commands hexecuted).2
    cases hnone _ hsome
  · intro state hanswer
    have hasks : Asks (processes i).env (processes i).request := h.own (hget ▸ List.mem_append_right _ (List.mem_cons_self ..))
    exact serve_notFound.2 ⟨hasks, hnone state hanswer ▸ hanswer⟩

theorem sample_refused : (serve (sampleProcesses 3).env (sampleProcesses 3).request).executed = [] ∧
    ∀ state, (sampleProcesses 3).env.redisGet (sessionKey "abc") = .ok state →
      NotFound (serve (sampleProcesses 3).env (sampleProcesses 3).request) := by
  have hfresh : Fresh sampleProcesses := by
    unfold Fresh
    decide +kernel
  have hsplit : sampleEvents = [] ++ .call 0 (.setex "abc" "2025-06-18" (.obj [])) true ::
      ([.tick 60, .call 1 (.get (sessionKey "abc")) true, .call 1 (.expire (sessionKey "abc")) true] ++
        .call 2 (.del (sessionKey "abc")) true :: ([] ++ .call 3 (.get (sessionKey "abc")) true :: [])) := rfl
  exact deleted_refused (i := 3) hfresh sample_history hsplit

end Histories

end Mports.McpSessions
