import Haechi.Text.Path

/-! The protocol adapters: the routes that each of them knows, with what is protected
on them and how their responses are streamed, and how the adapter of a target and the
route of a request are found. A route is known by its whole path, or, where the path
carries the model, by the method after the last colon. -/

namespace Haechi.Proxy

open Text

/-- The wire framing of a stream. -/
inductive Format where
  | sse
  | ndjson
deriving DecidableEq

/-- The types of frames that end a sequence of deltas, and where a frame has its type. -/
structure FlushOnType where
  path : Path
  values : List JsString

/-- A streaming descriptor; without a path there is no channel of incremental text. -/
structure Streaming where
  format : Format
  deltaPath : Option Path
  flushOnType : Option FlushOnType := none

def sseChat : Streaming where
  format := .sse
  deltaPath := some [.key (js "choices"), .index 0, .key (js "delta"), .key (js "content")]

def sseCompletion : Streaming where
  format := .sse
  deltaPath := some [.key (js "choices"), .index 0, .key (js "text")]

def sseResponses : Streaming where
  format := .sse
  deltaPath := none

def sseLlamaLegacy : Streaming where
  format := .sse
  deltaPath := some [.key (js "content")]

def ndjsonOllamaChat : Streaming where
  format := .ndjson
  deltaPath := some [.key (js "message"), .key (js "content")]

def ndjsonOllamaGenerate : Streaming where
  format := .ndjson
  deltaPath := some [.key (js "response")]

def sseAnthropicMessages : Streaming where
  format := .sse
  deltaPath := some [.key (js "delta"), .key (js "text")]
  flushOnType := some ⟨[.key (js "type")],
    [js "content_block_stop", js "message_delta", js "message_stop"]⟩

def sseAnthropicComplete : Streaming where
  format := .sse
  deltaPath := some [.key (js "completion")]

def sseGemini : Streaming where
  format := .sse
  deltaPath := some [.key (js "candidates"), .index 0, .key (js "content"), .key (js "parts"),
    .index 0, .key (js "text")]

/-! ### Routes -/

structure RouteOptions where
  protectRequest : Bool := true
  protectResponse : Bool := true
  streamingDefault : Bool := false
  streaming : Option Streaming := none

structure AdapterRoute extends RouteOptions where
  id : JsString
  path : Option JsString
  methodSuffix : Option JsString
  operation : JsString

def route (path operation : String) (options : RouteOptions) : AdapterRoute :=
  ⟨options, js operation, some (js path), none, js operation⟩

/-- A route whose path carries the model. -/
def suffixRoute (methodSuffix operation : String) (options : RouteOptions) : AdapterRoute :=
  ⟨options, js operation, none, some (js methodSuffix), js operation⟩

/-- The path ends with a colon and the method. -/
def hasMethod (methodSuffix pathname : JsString) : Bool := (58 :: methodSuffix).isSuffixOf pathname

/-- `matchRoute`. -/
def matchRoute (routes : List AdapterRoute) (pathname : JsString) : Option AdapterRoute :=
  (routes.find? fun candidate => candidate.path == some pathname).or
    (routes.find? fun candidate => candidate.methodSuffix.any fun suffix => hasMethod suffix pathname)

/-! ### Adapters -/

structure Adapter where
  id : JsString
  protocol : JsString
  routes : List AdapterRoute

def openaiRoutes : List AdapterRoute :=
  [route "/v1/chat/completions" "chat-completions" { streaming := some sseChat },
    route "/v1/completions" "completions" { streaming := some sseCompletion },
    route "/v1/responses" "responses" { streaming := some sseResponses },
    route "/v1/embeddings" "embeddings" {}]

def llamaCppRoutes : List AdapterRoute :=
  [route "/v1/chat/completions" "chat-completions" { streaming := some sseChat },
    route "/v1/completions" "completions" { streaming := some sseCompletion },
    route "/v1/embeddings" "embeddings" {},
    route "/completion" "legacy-completion" { streaming := some sseLlamaLegacy }]

def ollamaRoutes : List AdapterRoute :=
  [route "/api/chat" "chat" { streamingDefault := true, streaming := some ndjsonOllamaChat },
    route "/api/generate" "generate"
      { streamingDefault := true, streaming := some ndjsonOllamaGenerate },
    route "/api/embed" "embed" {},
    route "/api/embeddings" "embeddings" {}]

def anthropicRoutes : List AdapterRoute :=
  [route "/v1/messages" "messages" { streaming := some sseAnthropicMessages },
    route "/v1/messages/count_tokens" "count-tokens" { protectRequest := true },
    route "/v1/complete" "complete" { streaming := some sseAnthropicComplete }]

def geminiRoutes : List AdapterRoute :=
  [suffixRoute "generateContent" "generate-content" {},
    suffixRoute "streamGenerateContent" "stream-generate-content"
      { streamingDefault := true, streaming := some sseGemini },
    suffixRoute "countTokens" "count-tokens" { protectRequest := true },
    suffixRoute "embedContent" "embed" { protectRequest := true },
    suffixRoute "batchEmbedContents" "batch-embed" { protectRequest := true }]

/-- `ADAPTERS`. -/
def adapters : List Adapter :=
  [⟨js "openai-compatible", js "llm-http", openaiRoutes⟩,
    ⟨js "vllm-openai", js "vllm-openai", openaiRoutes⟩,
    ⟨js "llama-cpp", js "llama-cpp", llamaCppRoutes⟩,
    ⟨js "ollama", js "ollama", ollamaRoutes⟩,
    ⟨js "anthropic", js "anthropic", anthropicRoutes⟩,
    ⟨js "gemini", js "gemini", geminiRoutes⟩]

def adapterOf (id : JsString) : Option Adapter := adapters.find? fun a => a.id == id

/-- `adapterFromTargetType`. -/
def adapterFromTargetType (type : Option JsString) : Except JsString JsString :=
  let type := type.getD (js "llm-http")
  if (adapterOf type).isSome then .ok type
  else if type = js "llm-http" then .ok (js "openai-compatible")
  else .error (js "Unknown target.type: " ++ type ++ js ". Known types: " ++
    (js ", ").intercalate (js "llm-http" :: adapters.map (·.id)))

/-- The id that is looked up: a type that names an adapter goes before the adapter. -/
def adapterId (type adapter : Option JsString) : Except JsString JsString :=
  match type.bind adapterOf, adapter with
  | some named, _ => .ok named.id
  | none, some id => .ok id
  | none, none => adapterFromTargetType type

def createProtocolAdapter (type adapter : Option JsString) : Except JsString Adapter :=
  match adapterId type adapter with
  | .error e => .error e
  | .ok id => (adapterOf id).elim (.error (js "Unknown protocol adapter: " ++ id)) .ok

/-- What a request is classified as. -/
structure Classified where
  adapterId : JsString
  protocol : JsString
  routeId : JsString
  path : JsString
  operation : JsString
  protectRequest : Bool
  protectResponse : Bool
  streamingByDefault : Bool
  streaming : Option Streaming

/-- `classifyRequest`, of a request with this path. -/
def Adapter.classifyRequest (a : Adapter) (method pathname : JsString) : Classified :=
  let matched := matchRoute a.routes pathname
  { adapterId := a.id
    protocol := a.protocol
    routeId := (matched.map (·.id)).getD (js "unknown")
    path := pathname
    operation := method ++ js " " ++ (matched.map (·.operation)).getD pathname
    protectRequest := (matched.map (·.protectRequest)).getD true
    protectResponse := (matched.map (·.protectResponse)).getD true
    streamingByDefault := (matched.map (·.streamingDefault)).getD false
    streaming := matched.bind (·.streaming) }

end Haechi.Proxy
