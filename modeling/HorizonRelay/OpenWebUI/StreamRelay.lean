import HorizonRelay.Lib.Dict
import HorizonRelay.Lib.Json

/-!
# A run as a chat message

What the Open WebUI adapter writes while a run goes on: the text of the models inside a
thinking block, each step under a heading and its JSON in a fence, then the answer.

A yielded string is kept as the marks the adapter puts in it, followed by the text it passes
on, so that both can be told apart in the message.

## Main definitions

* `DeltaCall`, `Delta`, `Ending` — what the queue of a run delivers.
* `stepHeading` — the heading of a step.
* `Mark`, `Piece`, `message` — what is yielded.
* `StreamState`, `streamRelay` — the adapter's state, and all it yields.
-/

namespace HorizonRelay

open Py

/-- The call a chunk belongs to, as its record describes it; `none` is Python's `None`. -/
structure DeltaCall : Type where
  tier : Str
  operation : Str
  taskId : Option Str
  attempt : Option ℕ
  model : Option Str
  kind : Option Str
  deriving DecidableEq

/-- A chunk a model wrote. -/
structure Delta : Type where
  call : DeltaCall
  text : Str
  deriving DecidableEq

/-- How a run ends: with its content and the summary below it, or with an error. -/
inductive Ending : Type
  | done (content summary : Str)
  | error (text : Str)

section Headings
variable (lib : StdLib)

/-- `(\d+(?:\.\d+)?B)` without regard to case, at the front of a text. -/
def sizeAt (name : Str) : Option Str :=
  let digits := name.takeWhile lib.isDecimal
  if digits.isEmpty then none
  else
    match name.dropWhile lib.isDecimal with
    | '.' :: rest =>
        let decimals := rest.takeWhile lib.isDecimal
        if decimals.isEmpty then none
        else
          match rest.dropWhile lib.isDecimal with
          | 'B' :: _ => some (digits ++ '.' :: decimals ++ ['B'])
          | 'b' :: _ => some (digits ++ '.' :: decimals ++ ['b'])
          | _ => none
    | 'B' :: _ => some (digits ++ ['B'])
    | 'b' :: _ => some (digits ++ ['b'])
    | _ => none

/-- The size in a model's name, or the whole name. -/
def shortModel (name : Str) : Str := (name.tails.findSome? (sizeAt lib)).getD name

/-- `models.get(tier, tier)` unless the call names its model. -/
def modelName (models : Dict Str Str) (call : DeltaCall) : Str :=
  match call.model with
  | some (c :: name) => c :: name
  | _ => (models.get? call.tier).getD call.tier

/-- What a step is called in its heading. -/
def stepName (call : DeltaCall) : Str :=
  if call.operation = "solve".toList then
    "answer ".toList ++ Str.ofNat (match call.attempt with
      | some (n + 1) => n + 1
      | _ => 1)
  else if call.operation = "critique".toList then "checking the answer".toList
  else if call.operation = "plan".toList then "planning".toList
  else if call.operation = "attempt".toList then "exact extraction".toList
  else if call.operation = "work".toList then
    "subtask ".toList ++ call.taskId.getD "None".toList
  else if call.operation = "synthesize".toList then "writing the answer".toList
  else if call.operation = "answer".toList then "answering".toList
  else call.operation

/-- The step whose text is streaming. -/
def stepHeading (models : Dict Str Str) (call : DeltaCall) : Str :=
  shortModel lib (modelName models call) ++ " · ".toList ++ stepName call

end Headings

/-! ## What is yielded -/

/-- What the adapter itself writes. -/
inductive Mark : Type
  | openThinking
  | closeThinking
  /-- A heading, and whether another one stood before it. -/
  | heading (later : Bool) (text : Str)
  | openFence
  | closeFence
  deriving DecidableEq

/-- `</think>`. -/
def endTag : Str := "</think>".toList

def Mark.text : Mark → Str
  | .openThinking => "<think>".toList
  | .closeThinking => endTag ++ "\n\n".toList
  | .heading later text =>
      (if later then "\n\n".toList else []) ++ "**".toList ++ text ++ "**\n".toList
  | .openFence => "```json\n".toList
  | .closeFence => "\n```\n".toList

/-- Whether a text belongs to the work or to the answer. -/
inductive Role : Type
  | work
  | answer
  deriving DecidableEq

/-- One yielded string: marks, then a text that is passed on. -/
structure Piece : Type where
  role : Role
  marks : List Mark
  text : Str
  deriving DecidableEq

namespace Piece

/-- The marks of a piece, as text. -/
def markup (p : Piece) : Str := p.marks.flatMap Mark.text

/-- The yielded string. -/
def string (p : Piece) : Str := p.markup ++ p.text

end Piece

/-- The message the pieces make up. -/
def message (pieces : List Piece) : Str := pieces.flatMap Piece.string

/-- Everything the adapter itself wrote, in order. -/
def marksOf (pieces : List Piece) : List Mark := pieces.flatMap Piece.marks

/-! ## The adapter -/

/-- The variables of the adapter. -/
structure StreamState : Type where
  thinking : Bool := false
  answered : Bool := false
  heading : Option Str := none
  fenced : Bool := false
  fresh : Bool := false

/-- Whether a chunk is reasoning. -/
def DeltaCall.isThinking (call : DeltaCall) : Bool := call.kind = some "thinking".toList

/-- Whether a chunk is output of the final step. -/
def DeltaCall.isAnswer (call : DeltaCall) : Bool :=
  (call.operation = "synthesize".toList || call.operation = "answer".toList) && !call.isThinking

/-- `payload.lstrip("\n")`. -/
def lstripNewlines (s : Str) : Str := s.dropWhile (· = '\n')

namespace StreamState

def closeFence (s : StreamState) : List Mark × StreamState :=
  if s.fenced then ([.closeFence], { s with fenced := false }) else ([], s)

/-- The heading of a chunk, where it differs from the last one. -/
def openHeading (heading : Str) (s : StreamState) : List Mark × StreamState :=
  if some heading ≠ s.heading then
    let (closing, s') := s.closeFence
    (closing ++ [.heading (s.heading.any fun h => !h.isEmpty) heading],
      { s' with heading := some heading })
  else ([], s)

/-- The fence a chunk of output stands in, and none around reasoning. -/
def adjustFence (isThinking : Bool) (s : StreamState) : List Mark × StreamState :=
  if !isThinking && !s.fenced then ([.openFence], { s with fenced := true, fresh := true })
  else if isThinking && s.fenced then s.closeFence
  else ([], s)

/-- Heading and fence changes needed before a chunk. -/
def openStep (heading : Str) (isThinking : Bool) (s : StreamState) : List Mark × StreamState :=
  let (first, s) := s.openHeading heading
  let (second, s) := s.adjustFence isThinking
  (first ++ second, s)

def closeThinking (s : StreamState) : List Mark × StreamState :=
  if s.thinking then
    let (closing, s) := { s with thinking := false }.closeFence
    (closing ++ [.closeThinking], s)
  else ([], s)

/-- A chunk of the final answer. -/
def answerDelta (text : Str) (s : StreamState) : List Piece × StreamState :=
  let (marks, s) := { s with answered := true }.closeThinking
  ([⟨.answer, marks, text⟩], s)

/-- The blank lines a model writes before its JSON are left out. -/
def trim (text : Str) (s : StreamState) : Str × StreamState :=
  if s.fresh then
    let text := lstripNewlines text
    (text, { s with fresh := text.strip.isEmpty })
  else (text, s)

/-- A chunk of the work. -/
def workDelta (heading : Str) (isThinking : Bool) (text : Str) (s : StreamState) :
    List Piece × StreamState :=
  let opened : List Piece := if s.thinking then [] else [⟨.work, [.openThinking], []⟩]
  let (marks, s) := { s with thinking := true }.openStep heading isThinking
  let (text, s) := s.trim text
  (opened ++ [⟨.work, marks, text⟩], s)

/-- One chunk from the queue. -/
def delta (lib : StdLib) (models : Dict Str Str) (d : Delta) (s : StreamState) :
    List Piece × StreamState :=
  if d.call.isAnswer then s.answerDelta d.text
  else s.workDelta (stepHeading lib models d.call) d.call.isThinking d.text

/-- The chunks of a run, one after the other. -/
def deltas (lib : StdLib) (models : Dict Str Str) : List Delta → StreamState →
    List Piece × StreamState
  | [], s => ([], s)
  | d :: ds, s =>
      let (pieces, s) := s.delta lib models d
      let (rest, s) := deltas lib models ds s
      (pieces ++ rest, s)

/-- The end of a run. -/
def ending (e : Ending) (s : StreamState) : Piece :=
  match e with
  | .error text =>
      ⟨.answer, s.closeThinking.1, "**Relay stopped — no complete answer.** ".toList ++ text⟩
  | .done content summary =>
      ⟨.answer, s.closeThinking.1,
        (if s.answered then [] else content) ++ "\n\n---\n".toList ++ summary⟩

end StreamState

/-- Everything that is yielded in a run. -/
def streamRelay (lib : StdLib) (models : Dict Str Str) (ds : List Delta) (e : Ending) :
    List Piece :=
  let (pieces, s) := StreamState.deltas lib models ds {}
  pieces ++ [s.ending e]

end HorizonRelay
