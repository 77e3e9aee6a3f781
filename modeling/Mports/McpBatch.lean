import Mports.McpRequest

set_option autoImplicit false

namespace Mports.McpBatch
open McpMessages McpRequest

/-- The id of the response an element is due: an invalid request has that of its `id`
only where it is an object of JSON-RPC 2.0, and `notifications/initialized` is a
notification whatever it has. -/
def answerId : Json → Option Json
  | .obj fields =>
    if (get fields "jsonrpc").any fun v => v.is "2.0" then
      match get fields "method" with
      | none => if isJsonrpcResponse fields then none else some (Json.orElse .null (get fields "id"))
      | some method => if method.is "notifications/initialized" then none else get fields "id"
    else some .null
  | _ => some .null

/-- A `tools/call` request whose parameters are neither NULL nor an object. -/
def Malformed : Json → Prop
  | .obj fields => (∃ method, get fields "method" = some method ∧ method.is "tools/call" = true) ∧
      (get fields "id").isSome ∧ ∀ params, Json.orElse (.obj []) (get fields "params") ≠ .obj params
  | _ => False

/-- Each tool comes to `tool_result` once, or dies before it does. -/
def AnswersOnce (env : Env) : Prop :=
  ∀ n tool args, (∃ r, env.tool n tool args = ⟨[r], none⟩) ∨ ∃ message, env.tool n tool args = ⟨[], some message⟩

/-- While responses are collected, only those of the ids are added. -/
structure Collected (page page' : Page) (ids : List Json) : Prop where
  collecting : page'.collectResponses = true
  alive : page'.died = page.died
  printed : page'.printed = page.printed
  session : page'.sessionId = page.sessionId
  responses : ∃ rs, page'.collectedResponses = page.collectedResponses ++ rs ∧ rs.map (·.id) = ids

namespace Collected
variable {env : Env} {page page' page'' : Page} {ids ids' : List Json}

theorem refl (h : page.collectResponses = true) : Collected page page [] :=
  ⟨h, rfl, rfl, rfl, [], by simp, rfl⟩

theorem trans (h : Collected page page' ids) (h' : Collected page' page'' ids') :
    Collected page page'' (ids ++ ids') := by
  obtain ⟨rs, hrs, hids⟩ := h.responses
  obtain ⟨rs', hrs', hids'⟩ := h'.responses
  exact ⟨h'.collecting, h'.alive.trans h.alive, h'.printed.trans h.printed,
    h'.session.trans h.session, rs ++ rs', by simp [hrs', hrs], by simp [hids, hids']⟩

theorem respond (h : page.collectResponses = true) (status : Option String) (r : Response) :
    Collected page (page.respond status r) [r.id] := by
  simp only [Page.respond, h, if_true]
  exact ⟨rfl, rfl, rfl, rfl, [r], rfl, rfl⟩

theorem acknowledge (h : page.collectResponses = true) :
    Collected page page.acknowledgeNotification [] := by
  simp only [Page.acknowledgeNotification, h, if_true]
  exact refl h

theorem execute (h : page.collectResponses = true) (x : Handler) (id : Json) (r : Result) :
    Collected page ((page.execute x).rpcResult id r) [id] := by
  have hexecuted : Collected page (page.execute x) [] := ⟨h, rfl, rfl, rfl, [], (List.append_nil _).symm, rfl⟩
  exact hexecuted.trans (respond hexecuted.collecting none ⟨id, .result r⟩)

theorem toolsCall (answers : AnswersOnce env) (h : page.collectResponses = true) (id : Json) (fields : List (String × Json)) :
    Collected page (handleToolsCall env page id (.obj fields)) [id] := by
  simp only [handleToolsCall]
  split
  · rename_i tool _
    rcases answers page.executed.length tool (Json.orElse (.obj []) (get fields "arguments")) with
      ⟨r, hresult⟩ | ⟨message, hdied⟩
    · rw [hresult]
      exact execute h _ id _
    · rw [hdied]
      exact execute h _ id _
  · exact respond h _ _

theorem dispatch (answers : AnswersOnce env) {req : Json} (h : page.collectResponses = true) (hreq : ¬ Malformed req)
    (hlone : isInitializeRequest req = false) :
    Collected page (dispatchRequest env page req) (answerId req).toList := by
  cases req with
  | obj fields =>
    by_cases hversion : ((get fields "jsonrpc").any fun v => v.is "2.0") = true
    · simp only [dispatchRequest, answerId, hversion, if_true]
      cases hmethod : get fields "method" with
      | none =>
        by_cases hresponse : isJsonrpcResponse fields = true
        · simp only [hresponse, if_true]
          exact acknowledge h
        · simp only [hresponse, Bool.false_eq_true, if_false]
          exact respond h _ _
      | some method =>
        have hother : method.is "initialize" = false := by
          simpa [isInitializeRequest, hmethod] using hlone
        simp only [hother, Bool.false_eq_true, if_false]
        by_cases hnotification : method.is "notifications/initialized" = true
        · simp only [hnotification, if_true]
          exact acknowledge h
        simp only [hnotification, Bool.false_eq_true, if_false]
        cases hid : get fields "id" with
        | none =>
          have hacknowledged := acknowledge h
          split_ifs <;> exact hacknowledged
        | some id =>
          by_cases hlist : method.is "tools/list" = true
          · simp only [hlist, if_true]
            exact execute h _ id _
          by_cases hcall : method.is "tools/call" = true
          · -- the parameters are an object, or the request is malformed
            obtain ⟨params, hparams⟩ : ∃ params,
                Json.orElse (.obj []) (get fields "params") = .obj params := by
              by_contra hnone
              push Not at hnone
              exact hreq ⟨⟨method, hmethod, hcall⟩, by simp [hid], hnone⟩
            simp only [hlist, hcall, if_true, Bool.false_eq_true, if_false, hparams]
            exact toolsCall answers h id params
          · simp only [hlist, hcall, Bool.false_eq_true, if_false]
            exact respond h _ _
    · simp only [dispatchRequest, answerId, hversion, Bool.false_eq_true, if_false]
      exact respond h _ _
  | _ => exact respond h _ _

theorem dispatchAll (answers : AnswersOnce env) {batch : List Json} (h : page.collectResponses = true) (alive : page.died = false)
    (hbatch : ∀ req ∈ batch, ¬ Malformed req ∧ isInitializeRequest req = false) :
    Collected page (dispatchAll env page batch) (batch.filterMap answerId) := by
  induction batch generalizing page with
  | nil => exact refl h
  | cons req rest ih =>
    obtain ⟨hreq, hrest⟩ := List.forall_mem_cons.1 hbatch
    have hfirst : Collected page (dispatchRequest env page req) (answerId req).toList :=
      dispatch answers h hreq.1 hreq.2
    have halive := hfirst.alive.trans alive
    have hall := hfirst.trans (ih hfirst.collecting halive hrest)
    simp only [McpMessages.dispatchAll, halive, Bool.false_eq_true, if_false]
    cases hid : answerId req with
    | none => simpa [List.filterMap_cons, hid] using hall
    | some id => simpa [List.filterMap_cons, hid] using hall

end Collected

/-- The headers of a request are accepted, and its body is a batch that may be answered. -/
structure AcceptedBatch (env : Env) (request : Request) (batch : List Json) : Prop where
  post : request.requestMethod = "POST"
  json : acceptsContentType request "application" "json" = true
  eventStream : acceptsContentType request "text" "event-stream" = true
  body : request.postData.getD "" ≠ ""
  decoded : env.decode (request.postData.getD "") = .ok (.arr batch)
  nonempty : batch ≠ []
  version : validateMcpProtocolHeader request = true
  batches : effectiveProtocolVersion request ≠ "2025-06-18"
  session : (validateSessionHeader env .start request).2 = true
  noInitialize : batchContainsInitialize batch = false

/-- What a batch prints: all responses in one array, or 202 when there are none. -/
def Answered (request : Request) (ids : List Json) (printed : List Reply) : Prop :=
  if ids.isEmpty then printed = [⟨some "202 Accepted", some (requestSessionId request), .empty⟩]
  else ∃ rs, printed = [⟨none, some (requestSessionId request), .batch rs⟩] ∧ rs.map (·.id) = ids

theorem validateSessionHeader_page {env : Env} {request : Request}
    (h : (validateSessionHeader env .start request).2 = true) :
    validateSessionHeader env .start request = (Page.start.setSession (requestSessionId request), true) := by
  unfold validateSessionHeader validateSession at h ⊢
  split at h
  · cases h
  · rename_i hid
    rw [if_neg hid]
    split at h
    · rename_i hvalid
      rw [if_pos hvalid]
      cases hget : env.redisGet (sessionKey (requestSessionId request)) with
      | error message => simp [hget] at h
      | ok state => cases state with
        | none => simp [hget] at h
        | some state => cases hexpire : env.redisExpire (sessionKey (requestSessionId request)) with
          | error message => simp [hget, hexpire] at h
          | ok _ => rfl
    · cases h

theorem serve_batch {env : Env} {request : Request} {batch : List Json}
    (h : AcceptedBatch env request batch) :
    serve env request = serveBatch env (Page.start.setSession (requestSessionId request)) request batch := by
  simp [serve, servePost, serveMessage, h.post, h.json, h.eventStream, h.body, h.decoded, h.version,
    h.noInitialize, isInitializeRequest, Json.isRef, validateSessionHeader_page h.session]

/-- Every element of a batch without malformed calls is answered as it is due. -/
theorem batch_answered {env : Env} {request : Request} {batch : List Json}
    (answers : AnswersOnce env) (accepted : AcceptedBatch env request batch) (wellFormed : ∀ req ∈ batch, ¬ Malformed req) :
    Answered request (batch.filterMap answerId) (serve env request).printed := by
  have hbatch : ∀ req ∈ batch, ¬ Malformed req ∧ isInitializeRequest req = false := by
    have hlone := accepted.noInitialize
    simp only [batchContainsInitialize, List.any_eq_false, Bool.not_eq_true] at hlone
    exact fun req hreq => ⟨wellFormed req hreq, hlone req hreq⟩
  let page := Page.start.setSession (requestSessionId request)
  have hall : Collected { page with collectedResponses := [], collectResponses := true }
      (dispatchAll env { page with collectedResponses := [], collectResponses := true } batch)
      (batch.filterMap answerId) := Collected.dispatchAll answers rfl rfl hbatch
  have hserve : serve env request = serveBatch env page request batch := serve_batch accepted
  have hnonempty : batch.isEmpty = false := by simpa using accepted.nonempty
  simp only [serveBatch, hnonempty, accepted.batches, accepted.noInitialize, Bool.false_eq_true,
    if_false] at hserve
  rw [hserve]
  generalize dispatchAll env _ batch = page' at hall ⊢
  have halive : page'.died = false := hall.alive
  have hprinted : page'.printed = [] := hall.printed
  have hsession : page'.sessionId = some (requestSessionId request) := hall.session
  obtain ⟨rs, hrs, hids⟩ := hall.responses
  rw [List.nil_append] at hrs
  rw [← hids]
  unfold Answered
  cases rs with
  | nil => simp [halive, hrs, Page.print, hprinted, hsession]
  | cons r rs => simp [halive, hrs, Page.print, hprinted, hsession]

def initialized : Json :=
  .obj [("jsonrpc", .str "2.0"), ("id", .num "7"), ("method", .str "notifications/initialized")]

def outdated : Json := .obj [("jsonrpc", .str "1.0"), ("id", .num "8"), ("method", .str "tools/list")]

theorem accepted_sample {batch : List Json} (nonempty : batch ≠ [])
    (noInitialize : batchContainsInitialize batch = false) :
    AcceptedBatch (sampleEnv (.arr batch)) samplePost batch where
  post := rfl
  json := by decide +kernel
  eventStream := by decide +kernel
  body := by decide
  decoded := rfl
  nonempty := nonempty
  version := by decide +kernel
  batches := by decide +kernel
  session := by
    have hvalid : (validateSessionHeader (sampleEnv .null) .start samplePost).2 = true := by decide +kernel
    exact hvalid
  noInitialize := noInitialize

def listRuns : Json :=
  .obj [("jsonrpc", .str "2.0"), ("id", .num "2"), ("method", .str "tools/call"), ("params", .obj [("name", .str "list_runs")])]

theorem listRuns_batch_answered : Answered samplePost [.num "1", .num "2", .null]
    (serve (sampleEnv (.arr [toolsList, listRuns, .null])) samplePost).printed := by
  have haccepted : AcceptedBatch (sampleEnv (.arr [toolsList, listRuns, .null])) samplePost [toolsList, listRuns, .null] :=
    accepted_sample (by simp) (by decide +kernel)
  refine batch_answered (fun _ _ _ => .inl ⟨_, rfl⟩) haccepted ?_
  intro req hreq
  simp only [List.mem_cons, List.not_mem_nil, or_false] at hreq
  rcases hreq with rfl | rfl | rfl
  · rintro ⟨⟨method, hmethod, hcall⟩, -⟩
    cases hmethod
    simp [Json.is] at hcall
  · rintro ⟨-, -, hparams⟩
    exact hparams _ rfl
  · exact fun h => h

def Reply.responses (reply : Reply) : List Response :=
  match reply.body with
  | .one r => [r]
  | .batch rs => rs
  | _ => []

def isNull : Json → Bool
  | .null => true
  | _ => false

/-- Two requests with an id, 7 and 8: the first is not answered, the second with a null id. -/
theorem ids_not_carried :
    AcceptedBatch (sampleEnv (.arr [initialized, outdated])) samplePost [initialized, outdated] ∧
    ((serve (sampleEnv (.arr [initialized, outdated])) samplePost).printed.flatMap Reply.responses).map
      (fun r => isNull r.id) = [true] :=
  ⟨accepted_sample (by simp) (by decide +kernel), by decide +kernel⟩

end Mports.McpBatch
