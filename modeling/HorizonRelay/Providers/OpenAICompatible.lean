import HorizonRelay.Lib.JsonAccess
import HorizonRelay.Lib.JsonText
import HorizonRelay.Providers

/-!
# The Chat Completions client

What a call makes of the server's answer, complete or streamed.  The texts of server-sent
lines come decoded, and `json.loads` is a parameter: it may refuse a text, or give up on
one that is nested too deep.

## Main definitions

* `splitThinking` — the reasoning and the answer of a text.
* `tokenLogprobs` — the log-probabilities of a choice.
* `readResponse`, `readStream` — the two readers.
* `OpenAICompatibleProvider.complete` — a call, from the server's answer on.
-/

namespace HorizonRelay

open Py

/-! ## The reasoning and the answer -/

/-- `</ifm|think`, which a marker of either form begins with. -/
def markerOpening : Str := "</ifm|think".toList

/-- `[a-z]`. -/
def isLetter (c : Char) : Bool := 'a' ≤ c && c ≤ 'z'

/-- `</ifm\|think(?:_[a-z]+)?>` at the front of a text: the marker and what follows it. -/
def markerAt (s : Str) : Option (Str × Str) :=
  if markerOpening.isPrefixOf s then
    match s.drop markerOpening.length with
    | '>' :: rest => some (markerOpening ++ ['>'], rest)
    | '_' :: rest =>
        match rest.takeWhile isLetter, rest.dropWhile isLetter with
        | c :: name, '>' :: rest => some (markerOpening ++ '_' :: c :: name ++ ['>'], rest)
        | _, _ => none
    | _ => none
  else none

/-- The first marker of a text: what stands before it, the marker, and what follows. -/
def findMarker : Str → Option (Str × Str × Str)
  | [] => none
  | c :: rest =>
      match markerAt (c :: rest) with
      | some (marker, after) => some ([], marker, after)
      | none => (findMarker rest).map fun (before, found) => (c :: before, found)

/-- The text up to the first `end`, and what follows that. -/
def upTo (stop : Str) : Str → Option (Str × Str)
  | [] => if stop.isEmpty then some ([], []) else none
  | c :: rest =>
      if stop.isPrefixOf (c :: rest) then some ([], (c :: rest).drop stop.length)
      else (upTo stop rest).map fun (before, after) => (c :: before, after)

/-- `\s*<think>(.*?)</think>\s*` at the front of a text: the block and what follows it. -/
def thinkBlock (s : Str) : Option (Str × Str) :=
  let body := s.lstrip
  if "<think>".toList.isPrefixOf body then
    (upTo "</think>".toList (body.drop "<think>".toList.length)).map fun (block, rest) =>
      (block, rest.lstrip)
  else none

/-- `(thinking + "\n" + text).strip()`. -/
def addThinking (thinking : Json) (text : Str) : Except PyError Json :=
  match thinking with
  | .str s => .ok (.str (s ++ '\n' :: text).strip)
  | _ => .error .typeError

/-- What the model reasoned, and the answer it settled on. -/
def splitThinking (content : Str) (reasoning : Json) : Except PyError (Str × Str) := do
  let (thinking, content) ← match thinkBlock content with
    | some (block, rest) => do pure (← addThinking reasoning block, rest)
    | none => pure (reasoning, content)
  let (thinking, content) ← match findMarker content with
    | some (before, _, after) => do pure (← addThinking thinking before, after)
    | none => pure (thinking, content)
  match thinking with
  | .str s => pure (s.strip, content.strip)
  | _ => .error .attributeError

/-! ## Log-probabilities -/

/-- A token as the server states it, with the likeliest ones in its place. -/
structure TokenLogprob : Type where
  t : Str
  lp : PyFloat
  top : List (Str × PyFloat)

section Readers
variable (lib : StdLib)

/-- `str(a["token"]), float(a["logprob"])`. -/
def tokenPair (a : Json) : Except PyError (Str × PyFloat) := do
  let token ← a.item "token".toList
  let logprob ← a.item "logprob".toList
  let lp ← logprob.asFloat lib
  pure (token.pyStr lib, lp)

def tokenLogprob (t : Json) : Except PyError TokenLogprob := do
  let (token, lp) ← tokenPair lib t
  let top ← t.getField "top_logprobs".toList
  let alternatives ← (top.orElse (.arr [])).iter
  let top ← alternatives.mapM (tokenPair lib)
  pure { t := token, lp, top }

/-- `choice.logprobs.content`, and its tokens; none where there is no content. -/
def readLogprobs (choice : Json) : Except PyError (Option (List TokenLogprob)) := do
  let logprobs ← choice.getField "logprobs".toList
  let content ← (logprobs.orElse (.obj [])).getField "content".toList
  if content.truthy then
    let tokens ← content.iter
    let tokens ← tokens.mapM (tokenLogprob lib)
    pure (some tokens)
  else pure none

/-- What `_token_logprobs` catches. -/
def logprobErrors : List PyError := [.attributeError, .keyError, .typeError, .valueError]

/-- The log-probabilities of a choice; none if absent or malformed. -/
def tokenLogprobs (choice : Json) : Except PyError (Option (List TokenLogprob)) :=
  match readLogprobs lib choice with
  | .ok tokens => .ok tokens
  | .error e => if e ∈ logprobErrors then .ok none else .error e

/-! ## The readers -/

/-- How `json.loads` fails: a `ValueError`, or a `RecursionError`. -/
inductive LoadError : Type
  | valueError
  | recursionError
  deriving DecidableEq

def LoadError.pyError : LoadError → PyError
  | .valueError => .valueError
  | .recursionError => .recursionError

/-- What `json.loads` makes of a text. -/
abbrev Loaded : Type := Except LoadError Json

/-- `json.loads`, of a text that is not nested too deep. -/
def jsonLoads (s : Str) : Loaded := (JsonText.loads s).elim (.error .valueError) .ok

/-- The parts of a reply that the readers give. -/
structure Received : Type where
  content : Json
  reasoning : Json
  tokens : Option (List TokenLogprob)
  finish : Json
  usage : List (Str × Json)

/-- The name a message begins with, `tier.title()`. -/
def Tier.title : Tier → Str
  | .small => "Local".toList
  | .mid => "Mid".toList
  | .cloud => "Cloud".toList

/-- The `try` block of `_read_response`. -/
def parseResponse (body : Loaded) : Except PyError Received := do
  let data ← body.mapError LoadError.pyError
  let choices ← data.item "choices".toList
  let choice ← choices.first
  let message ← choice.item "message".toList
  let usage ← data.getField "usage".toList
  let content ← message.getField "content".toList
  let reasoning ← message.getField "reasoning_content".toList
  let tokens ← tokenLogprobs lib choice
  let finish ← choice.getField "finish_reason".toList
  pure { content, reasoning := reasoning.orElse (.str []), tokens, finish
         usage := (usage.orElse (.obj [])).obj?.getD [] }

/-- What `_read_response` catches. -/
def bodyErrors : List PyError := [.valueError, .keyError, .indexError, .typeError]

/-- A complete (non-streaming) reply. -/
def readResponse (body : Loaded) (tier : Tier) : Except Exc Received :=
  match parseResponse lib body with
  | .ok received => .ok received
  | .error e =>
      .error (if e ∈ bodyErrors then
        relayError (tier.title ++ " endpoint returned an invalid completion".toList)
      else pyError e.name)

/-- What `on_delta` is told a text is. -/
inductive DeltaKind : Type
  | thinking
  | output
  deriving DecidableEq

/-- What a stream has brought so far. -/
structure Stream : Type where
  content : Str := []
  reasoning : Str := []
  tokens : List Json := []
  finish : Json := .null
  usage : List (Str × Json) := []
  /-- The reasoning-end marker has not come. -/
  thinking : Bool := true
  /-- The calls of `on_delta`. -/
  deltas : List (Str × DeltaKind) := []

namespace Stream

def onDelta (s : Stream) (text : Str) (kind : DeltaKind) : Stream :=
  { s with deltas := s.deltas ++ [(text, kind)] }

/-- `if said: on_delta(text, kind)`. -/
def onDeltaIf (s : Stream) (said : Bool) (text : Str) (kind : DeltaKind) : Stream :=
  if said then s.onDelta text kind else s

/-- `delta.reasoning_content`, when that is a nonempty text. -/
def reason (s : Stream) : Json → Stream
  | .str (c :: text) =>
      { s with reasoning := s.reasoning ++ c :: text }.onDelta (c :: text) .thinking
  | _ => s

/-- One more chunk of text. -/
def addContent (s : Stream) (text : Str) : Stream :=
  let s := { s with content := s.content ++ text }
  if s.thinking then
    match findMarker s.content with
    | none => s.onDelta text .thinking
    | some (_, marker, tail) =>
        -- the marker may arrive mid-chunk: this chunk is split, the marker dropped
        let head : Str := text.take (text.length - tail.length - marker.length)
        { s with thinking := false }.onDeltaIf (!head.strip.isEmpty) head .thinking
          |>.onDeltaIf (!tail.isEmpty) tail .output
  else s.onDelta text .output

/-- `delta.content`, when that is a nonempty text. -/
def write (s : Stream) : Json → Stream
  | .str (c :: text) => s.addContent (c :: text)
  | _ => s

/-- `event["usage"]`, when that is an object. -/
def setUsage (s : Stream) : Json → Stream
  | .obj fields => { s with usage := fields }
  | _ => s

/-- One choice of an event. -/
def choice (s : Stream) (choice : Json) : Except PyError Stream := do
  let delta ← choice.getField "delta".toList
  let delta := delta.orElse (.obj [])
  let finish ← choice.getField "finish_reason".toList
  let s := { s with finish := finish.orElse s.finish }
  let logprobs ← choice.getField "logprobs".toList
  let content ← (logprobs.orElse (.obj [])).getField "content".toList
  let tokens ← (content.orElse (.arr [])).iter
  let s := { s with tokens := s.tokens ++ tokens }
  let reasoning ← delta.getField "reasoning_content".toList
  let s := s.reason reasoning
  let text ← delta.getField "content".toList
  pure (s.write text)

/-- One server-sent event. -/
def event (s : Stream) (event : Json) : Except PyError Stream := do
  let usage ← event.getField "usage".toList
  let s := s.setUsage usage
  let choices ← event.getField "choices".toList
  let choices ← (choices.orElse (.arr [])).iter
  choices.foldlM Stream.choice s

end Stream

/-- Server-sent lines, up to the one that ends the stream. -/
def readLines (loads : Str → Loaded) : List Str → Stream → Except PyError Stream
  | [], s => .ok s
  | line :: lines, s =>
      if "data:".toList.isPrefixOf line then
        let chunk := Str.strip (line.drop "data:".toList.length)
        if chunk = "[DONE]".toList then .ok s
        else
          match loads chunk with
          | .error .valueError => readLines loads lines s
          | .error .recursionError => .error .recursionError
          | .ok event => do readLines loads lines (← s.event event)
      else readLines loads lines s

/-- Server-sent chunks, assembled into the same five parts. -/
def readStream (loads : Str → Loaded) (lines : List Str) : Except PyError Received := do
  let s ← readLines loads lines {}
  let tokens ← tokenLogprobs lib
    (.obj [("logprobs".toList, .obj [("content".toList, .arr s.tokens)])])
  pure { content := .str s.content, reasoning := .str s.reasoning, tokens, finish := s.finish
         usage := s.usage }

end Readers

/-! ## Calls -/

/-- A Chat Completions server. -/
structure Endpoint : Type where
  model : Str
  key : Str := []

/-- What a call returns. -/
structure Completion : Type where
  /-- Parsed JSON when possible, otherwise text. -/
  value : Json
  model : Str
  promptTokens : Option ℕ
  completionTokens : Option ℕ
  tokens : Option (List TokenLogprob)
  thinking : Str
  text : Str

/-- What the server sends: to a call without `on_delta` a body, to one with it lines. -/
inductive Answer : Type
  | body (loaded : Loaded)
  | lines (lines : List Str)

/-- How the request ends. -/
inductive Exchange : Type
  | timedOut
  | failed
  | answered (status : ℕ) (answer : Answer)

/-- The operations whose reply is an object. -/
def Operation.structured (op : Operation) : Bool :=
  op ∈ [.attempt, .plan, .work, .solve, .critique]

/-- The text without the fences of a code block. -/
def unfenced (s : Str) : Str :=
  let fence := "\x60\x60\x60".toList
  let body : Str :=
    if fence.isPrefixOf s then
      let rest := s.drop fence.length
      Str.lstrip (if "json".toList.isPrefixOf rest then rest.drop "json".toList.length else rest)
    else s
  Str.strip (if fence.isSuffixOf body then body.take (body.length - fence.length) else body)

/-- A count the server reports. -/
def usageCount (usage : List (Str × Json)) (name : Str) : Option ℕ :=
  match usage.lookup name with
  | some (.int n) => if 0 ≤ n then some n.toNat else none
  | _ => none

structure OpenAICompatibleProvider : Type where
  small : Endpoint
  cloud : Endpoint
  mid : Option Endpoint := none

namespace OpenAICompatibleProvider

/-- `endpoints.get(tier)`. -/
def endpoint (p : OpenAICompatibleProvider) : Tier → Option Endpoint
  | .small => some p.small
  | .mid => p.mid
  | .cloud => some p.cloud

section Complete
variable (lib : StdLib) (loads : Str → Loaded)

/-- The server's answer, read. -/
def receive (tier : Tier) : Exchange → Except Exc Received
  | .timedOut => .error (relayError (tier.title ++ " model timed out".toList))
  | .failed =>
      .error (relayError ("Cannot connect to the ".toList ++ tier.name ++
        " model endpoint".toList))
  | .answered status answer =>
      if status = 200 then
        match answer with
        | .body loaded => readResponse lib loaded tier
        | .lines lines => (readStream lib loads lines).mapError fun e => pyError e.name
      else
        .error (relayError (tier.title ++ " model returned HTTP ".toList ++ Str.ofNat status ++
          "; check endpoint configuration".toList))

/-- The value of a reply with this text. -/
def replyValue (operation : Operation) (content : Str) : Except PyError Json :=
  if operation.structured then
    match loads (unfenced content) with
    | .ok value => .ok value
    | .error .valueError => .ok (.str content)
    | .error .recursionError => .error .recursionError
  else .ok (.str content)

/-- What a call makes of the reply it received. -/
def completion (endpoint : Endpoint) (operation : Operation) (content : Str) (r : Received) :
    Except PyError Completion := do
  let (thinking, content) ← splitThinking content r.reasoning
  let value ← replyValue loads operation content
  pure { value, model := endpoint.model
         promptTokens := usageCount r.usage "prompt_tokens".toList
         completionTokens := usageCount r.usage "completion_tokens".toList
         tokens := r.tokens, thinking, text := content }

/-- The text of a reply that is neither empty nor cut off. -/
def usableText (content finish : Json) : Option Str :=
  content.str?.filter fun text => !text.strip.isEmpty && finish.str? != some "length".toList

/-- A model call, from the server's answer on. -/
def complete (p : OpenAICompatibleProvider) (tier : Tier) (operation : Operation)
    (exchange : Exchange) : Except Exc Completion :=
  match p.endpoint tier with
  | none => .error (relayError ("No ".toList ++ tier.name ++ " model is configured".toList))
  | some endpoint =>
      if tier = .cloud ∧ endpoint.key = [] then
        .error (relayError "Configure CLOUD_API_KEY before using cloud planning".toList)
      else do
        let r ← receive lib loads tier exchange
        match usableText r.content r.finish with
        | none =>
            .error (relayError (tier.title ++
              " response was empty or reached its token limit".toList))
        | some content =>
            (completion loads endpoint operation content r).mapError fun e => pyError e.name

end Complete

end OpenAICompatibleProvider

end HorizonRelay
