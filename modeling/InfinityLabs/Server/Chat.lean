import InfinityLabs.Server.StructuredReply

/-!
# The assistant

`services/openaiFunctionCall.service.js` and `services/chatbot.service.js`: one
user message is answered by requests to the model, with rounds of tool calls in
between.

What the model replies and what the services behind the tools answer is not the
code's choice.  A `Dialogue` gives the reply to request `r` of the turn and the
answer to tool call `i` of round `r`.  `executeTransfer` returns a transaction
only behind its commit and aborts before it throws, so a transfer is committed
exactly when its call is answered with a result; a turn reports the calls that
committed one.
-/

namespace InfinityLabs
namespace Server

/-- `MAX_HISTORY_MESSAGES`. -/
def MAX_HISTORY_MESSAGES : Nat := 20

/-- `MAX_TOOL_CALL_ROUNDS`. -/
def MAX_TOOL_CALL_ROUNDS : Nat := 5

/-- The roles of the messages that a chat keeps. -/
inductive Role where
  | user
  | assistant
  deriving DecidableEq, Repr

/-- An entry of `chatHistory`. -/
structure ChatEntry where
  role : Role
  content : JsString
  deriving DecidableEq, Repr

/-- An element of `tool_calls`. -/
structure ToolCall where
  id : JsString
  functionName : JsString
  arguments : JsString
  deriving DecidableEq, Repr

/-- `choices[0].message`; `tool_calls` is empty where it is missing. -/
structure AssistantMessage where
  content : Option JsString
  toolCalls : List ToolCall
  deriving DecidableEq, Repr

/-- A message of a request to the model; the system prompt is fixed. -/
inductive Message where
  | system
  | entry (e : ChatEntry)
  | assistant (m : AssistantMessage)
  | tool (toolCallId content : JsString)
  deriving DecidableEq, Repr

/-- `JSON.parse` (none where it throws), `JSON.stringify`, and the texts of the two
`TypeError`s that a tool call can meet. -/
structure Engine where
  parse : JsString → Option Json
  stringify : Json → JsString
  cannotDestructureNull : JsString
  notAFunction : JsString

/-- The service that a tool's handler awaits. -/
inductive ServiceCall where
  | getAccountSummary
  | findRecentTransactions (limit : Json)
  | executeTransfer (recipientEmail amount : Option Json) (description : Json)

/-- What happens in a turn from outside: the model's reply to request `r`, or the
message of its error, and the answer to call `i` of round `r`. -/
structure Dialogue where
  reply : Nat → Except JsString AssistantMessage
  service : Nat → Nat → ServiceCall → Except JsString Json

/-! ## Tools -/

/-- The keys of `toolRegistry`. -/
inductive Tool where
  | get_balance
  | get_transaction_history
  | transfer_money
  | get_supported_services
  deriving DecidableEq, Repr

/-- The name of a tool. -/
def Tool.name : Tool → JsString
  | .get_balance => js "get_balance"
  | .get_transaction_history => js "get_transaction_history"
  | .transfer_money => js "transfer_money"
  | .get_supported_services => js "get_supported_services"

/-- `toolRegistry[functionName]`, for the registry's own keys. -/
def Tool.ofName (functionName : JsString) : Option Tool :=
  [Tool.get_balance, .get_transaction_history, .transfer_money,
    .get_supported_services].find? fun tool => tool.name == functionName

/-- The keys that every object inherits: `toolRegistry` has a value without a
handler under each of them. -/
def inheritedKeys : List JsString :=
  [js "constructor", js "hasOwnProperty", js "isPrototypeOf", js "propertyIsEnumerable",
    js "toLocaleString", js "toString", js "valueOf", js "__defineGetter__",
    js "__defineSetter__", js "__lookupGetter__", js "__lookupSetter__", js "__proto__"]

/-- The answer of `get_supported_services`. -/
def supportedServices : Json :=
  let service (name description : String) : Json :=
    .object [(js "name", .string (js name)), (js "description", .string (js description))]
  .object [(js "services", .array
    [service "Check Balance" "View your current account balance",
      service "Transaction History" "View your recent transactions",
      service "Transfer Money" "Send money to another Dubai-Bank user"])]

section

variable (engine : Engine) (d : Dialogue)

/-- The handler of a tool, for call `i` of round `r`.  Two handlers destructure
their arguments, which fails on `null` before any service is called. -/
def Tool.handler (r i : Nat) (args : Json) : Tool → Except JsString Json
  | .get_balance =>
      (d.service r i .getAccountSummary).map fun balance =>
        .object [(js "balance", balance)]
  | .get_transaction_history =>
      match args with
      | .null => .error engine.cannotDestructureNull
      | _ =>
          (d.service r i (.findRecentTransactions
            ((args.field (js "limit")).getD (.number (js "5"))))).map fun transactions =>
              .object [(js "transactions", transactions)]
  | .transfer_money =>
      match args with
      | .null => .error engine.cannotDestructureNull
      | _ =>
          (d.service r i (.executeTransfer (args.field (js "recipientEmail"))
            (args.field (js "amount"))
            ((args.field (js "description")).getD (.string [])))).map fun transaction =>
              .object [(js "transaction", transaction)]
  | .get_supported_services => .ok supportedServices

/-- `executeFunctionCall`. -/
def executeFunctionCall (r i : Nat) (functionName : JsString) (args : Json) :
    Except JsString Json :=
  match Tool.ofName functionName with
  | some tool => tool.handler engine d r i args
  | none =>
      if inheritedKeys.contains functionName then .error engine.notAFunction
      else .ok (.object
        [(js "error", .string (js "Unknown function: " ++ functionName))])

/-- `JSON.parse(argsStr || '{}')`. -/
def parseArguments (call : ToolCall) : Option Json :=
  engine.parse (if call.arguments = [] then js "\x7b\x7d" else call.arguments)

/-- The message that answers a call whose arguments parsed. -/
def toolMessage (r i : Nat) (call : ToolCall) (args : Json) : Message :=
  .tool call.id <| engine.stringify <|
    match executeFunctionCall engine d r i call.functionName args with
    | .ok result => result
    | .error message => .object [(js "error", .string message)]

/-- `processToolCall`: arguments that do not parse throw outside the `try`. -/
def processToolCall (r i : Nat) (call : ToolCall) : Option Message :=
  (parseArguments engine call).map (toolMessage engine d r i call)

/-- `processAllToolCalls`, from index `i` on: `Promise.all` rejects if one call
does, though every call has been started. -/
def processAllToolCalls (r i : Nat) : List ToolCall → Option (List Message)
  | [] => some []
  | call :: rest => do
      let result ← processToolCall engine d r i call
      let results ← processAllToolCalls r (i + 1) rest
      pure (result :: results)

/-- Whether a call commits a transfer. -/
def commitsTransfer (r i : Nat) (call : ToolCall) : Bool :=
  call.functionName == Tool.transfer_money.name &&
    match parseArguments engine call with
    | some args => (Tool.handler engine d r i args .transfer_money).isOk
    | none => false

/-- The calls of a round, from index `i` on, that commit a transfer. -/
def committedTransfers (r i : Nat) : List ToolCall → List ToolCall
  | [] => []
  | call :: rest =>
      (if commitsTransfer engine d r i call then [call] else []) ++
        committedTransfers r (i + 1) rest

/-! ## The turn -/

/-- `buildMessagesForOpenAI`. -/
def buildMessagesForOpenAI (message : JsString) (chatHistory : List ChatEntry) :
    List Message :=
  .system :: (chatHistory.drop (chatHistory.length - MAX_HISTORY_MESSAGES)).map .entry ++
    [.entry ⟨.user, message⟩]

/-- How the loop of tool calls ended: the last response, or the message of the
error that it threw; the messages pushed; and the transfers committed. -/
structure ToolLoop where
  outcome : Except JsString AssistantMessage
  messages : List Message
  committed : List ToolCall

/-- `handleToolCallLoop`, with the rounds that are left of `MAX_TOOL_CALL_ROUNDS`
for the counter, and the transfers committed so far. -/
def handleToolCallLoop :
    Nat → AssistantMessage → List Message → List ToolCall → ToolLoop
  | 0, response, messages, committed => ⟨.ok response, messages, committed⟩
  | left + 1, response, messages, committed =>
      if response.toolCalls = [] then ⟨.ok response, messages, committed⟩
      else
        let round := MAX_TOOL_CALL_ROUNDS - (left + 1)
        let messages := messages ++ [.assistant response]
        let committed := committed ++ committedTransfers engine d round 0 response.toolCalls
        match processAllToolCalls engine d round 0 response.toolCalls with
        | none => ⟨.error (js "SyntaxError"), messages, committed⟩
        | some toolResults =>
            match d.reply (round + 1) with
            | .error e => ⟨.error e, messages ++ toolResults, committed⟩
            | .ok response' =>
                handleToolCallLoop left response' (messages ++ toolResults) committed

/-- The function names in the `tool_calls` of a message. -/
def Message.calledNames : Message → List JsString
  | .assistant response => response.toolCalls.map ToolCall.functionName
  | .system => []
  | .entry _ => []
  | .tool _ _ => []

/-- `extractCalledFunctionNames`. -/
def extractCalledFunctionNames (messages : List Message) : List JsString :=
  messages.flatMap Message.calledNames

/-- What `processWithFunctionCalling` returns; the error response has no
`transferCompleted`. -/
structure CallingResult where
  message : JsString
  data : Option (List Json × Json)
  chatHistory : List ChatEntry
  transferCompleted : Option Bool

/-- `buildResponse`. -/
def buildResponse (replyContent : JsString) (chatHistory : List ChatEntry)
    (message : JsString) (calledFunctionNames : List JsString) : CallingResult :=
  let parsed := parseStructuredResponse engine.parse replyContent
  { message := (parsed.map StructuredReply.message).getD replyContent
    data := parsed.map fun reply => (reply.transactions, reply.summary)
    chatHistory := chatHistory ++ [⟨.user, message⟩, ⟨.assistant, replyContent⟩]
    transferCompleted := some (calledFunctionNames.contains Tool.transfer_money.name) }

/-- `buildErrorResponse`. -/
def buildErrorResponse (chatHistory : List ChatEntry) (message : JsString) :
    CallingResult where
  message :=
    js "I am having trouble processing your request right now. Please try again shortly."
  data := none
  chatHistory := chatHistory ++ [⟨.user, message⟩]
  transferCompleted := none

/-- The `try` block of `processWithFunctionCalling` up to the final response. -/
def runToolLoop (message : JsString) (chatHistory : List ChatEntry) : ToolLoop :=
  let messages := buildMessagesForOpenAI message chatHistory
  match d.reply 0 with
  | .error e => ⟨.error e, messages, []⟩
  | .ok initialResponse =>
      handleToolCallLoop engine d MAX_TOOL_CALL_ROUNDS initialResponse messages []

/-- `processWithFunctionCalling`, and the transfers committed during it. -/
def processWithFunctionCalling (message : JsString) (chatHistory : List ChatEntry) :
    CallingResult × List ToolCall :=
  let loop := runToolLoop engine d message chatHistory
  match loop.outcome with
  | .error _ => (buildErrorResponse chatHistory message, loop.committed)
  | .ok finalResponse =>
      (buildResponse engine (finalResponse.content.getD []) chatHistory message
        (extractCalledFunctionNames loop.messages), loop.committed)

/-- `text.replace(/<[^>]*>/g, '')`. -/
def stripTags : JsString → JsString
  | [] => []
  | ch :: rest =>
      if ch == 0x3c && rest.contains 0x3e then
        stripTags ((rest.dropWhile (· != 0x3e)).drop 1)
      else ch :: stripTags rest
termination_by s => s.length
decreasing_by
  · have hle := (List.dropWhile_sublist (fun c : UInt16 => c != 0x3e) (l := rest)).length_le
    simp only [List.length_drop, List.length_cons]
    omega
  · simp

/-- `sanitizeInput`. -/
def sanitizeInput : Field → JsString
  | .text input => stripTags ((trim input).take 250)
  | .absent => []
  | .other => []

/-- The intents of a chat turn. -/
inductive Intent where
  | chat
  | error
  deriving DecidableEq, Repr

/-- What `processMessage` returns; an error result has no `transferCompleted`. -/
structure ChatResult where
  intent : Intent
  message : JsString
  data : Option (List Json × Json)
  chatHistory : List ChatEntry
  transferCompleted : Option Bool

/-- `processMessage`, and the transfers committed during it.  Nothing in its `try`
block throws, since `processWithFunctionCalling` catches. -/
def processMessage (message : Field) (chatHistory : List ChatEntry) :
    ChatResult × List ToolCall :=
  let cleanMessage := sanitizeInput message
  if cleanMessage = [] then
    ({ intent := .error, message := js "Please enter a valid message.", data := none
       chatHistory := chatHistory, transferCompleted := none }, [])
  else
    let (result, committed) := processWithFunctionCalling engine d cleanMessage chatHistory
    ({ intent := .chat, message := result.message, data := result.data
       chatHistory := result.chatHistory
       transferCompleted := some (result.transferCompleted.getD false) }, committed)

end

/-! ## Sample values -/

/-- The arguments of the sample call. -/
def sampleArguments : JsString :=
  js "\x7b\"recipientEmail\":\"b@bank.io\",\"amount\":5\x7d"

/-- `JSON.parse` and `JSON.stringify` on the texts of the sample turns. -/
def sampleEngine : Engine where
  parse text :=
    if text = sampleArguments then
      some (.object [(js "recipientEmail", .string (js "b@bank.io")),
        (js "amount", .number (js "5"))])
    else none
  stringify value :=
    match value with
    | .object [(key, .string text)] =>
        js "\x7b\"" ++ key ++ js "\":\"" ++ text ++ js "\"\x7d"
    | _ => []
  cannotDestructureNull := js "Cannot destructure 'object null' as it is null."
  notAFunction := js "tool.handler is not a function"

end Server
end InfinityLabs
