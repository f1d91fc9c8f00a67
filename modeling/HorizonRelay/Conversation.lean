import HorizonRelay.Engine.Relay

/-!
# Chat conversations

The latest user message of a conversation is the goal of a request, and the whole conversation
its source.

## Main definitions

* `checkMessages`, `transcript` — text messages, and all of them as one text.
* `toRequest` — the request a conversation makes.
* `Relay`, `Relay.chat` — the entry point for applications.

## Main results

* `Relay.chat_requestOk` — which conversations a run serves.
* `Relay.chat_text` — a first message is shown to the local models as it is.
-/

namespace HorizonRelay

open Py

/-! ## Messages -/

/-- `"/local-extract TEXT"`: copy the text exactly, checked, local only. -/
def localExtractCommand : Str := "/local-extract".toList

/-- `MAX_CONVERSATION_CHARS`. -/
def maxConversationChars : ℕ := 24000

/-- A text message. -/
structure Message : Type where
  role : Str
  content : Str
  deriving DecidableEq

/-- Read a message; anything but text in a known role is none. -/
def readMessage (m : Json) : Option Message := do
  let role ← (m.get? "role".toList).bind Json.str?
  let content ← (m.get? "content".toList).bind Json.str?
  if role ∈ ["system".toList, "user".toList, "assistant".toList] then some { role, content }
  else none

/-- All messages as one text. -/
def transcript (messages : List Message) : Str :=
  Str.join "\n\n".toList (messages.map fun m => m.role ++ ": ".toList ++ m.content)

/-- OpenAI-style text messages. -/
def checkMessages (messages : Json) : Except Exc (List Message) :=
  match messages.arr?.bind fun ms => ms.mapM readMessage with
  | some (m :: ms) =>
      if maxConversationChars < (transcript (m :: ms)).length then
        .error (relayError ("Conversation exceeds the prototype's ".toList ++
          Str.ofNat maxConversationChars ++ "-character limit; start a shorter chat".toList))
      else .ok (m :: ms)
  | _ => .error (relayError ("Horizon Relay currently accepts text-only conversations without " ++
      "tools or attachments").toList)

/-- The latest user message, if there is one. -/
def latestGoal (messages : List Message) : Str :=
  ((messages.reverse.find? fun m => m.role = "user".toList).map fun m => m.content.strip).getD []

/-- What the relay is asked. -/
structure RelayRequest : Type where
  goal : Str
  sources : Dict Str Str
  localExtract : Bool := false

/-- The request a conversation makes. -/
def toRequest (messages : Json) : Except Exc RelayRequest := do
  let messages ← checkMessages messages
  let goal := latestGoal messages
  if (localExtractCommand ++ [' ']).isPrefixOf goal then
    pure { goal := "Extract the text source verbatim".toList
           sources := Dict.empty.set "text".toList (goal.drop (localExtractCommand.length + 1))
           localExtract := true }
  else
    pure { goal, sources := Dict.empty.set "conversation".toList (transcript messages) }

/-! ## The entry point -/

/-- A relay: its models, limits and routing settings. -/
structure Relay : Type where
  lib : StdLib
  provider : Provider := {}
  limits : Limits := {}
  policy : RoutingPolicy := {}

namespace Relay

/-- The run of a request. -/
def setup (relay : Relay) (request : RelayRequest) (emit onDelta : Bool) : Setup where
  lib := relay.lib
  provider := relay.provider
  limits := relay.limits
  policy := relay.policy
  goal := request.goal
  sources := request.sources
  localExtract := request.localExtract
  emit := emit
  onDelta := onDelta

/-- The run that answers the latest user message of a conversation. -/
def chat (relay : Relay) (messages : Json) (emit onDelta : Bool := false) : Except Exc Setup :=
  (toRequest messages).map fun request => relay.setup request emit onDelta

end Relay

/-! ## What is served -/

theorem transcript_cons_ne_nil (m : Message) (ms : List Message) : transcript (m :: ms) ≠ [] := by
  cases ms <;> simp [transcript, Str.join, List.intercalate]

theorem checkMessages_eq_ok {messages : Json} {ms : List Message}
    (h : checkMessages messages = .ok ms) :
    ms ≠ [] ∧ (transcript ms).length ≤ maxConversationChars := by
  unfold checkMessages at h
  split at h
  · split at h
    · cases h
    · rename_i hlen
      cases h
      exact ⟨List.cons_ne_nil _ _, Nat.not_lt.mp hlen⟩
  · cases h

/-- Messages are not longer than all of them together. -/
theorem length_content_le {m : Message} {ms : List Message} (h : m ∈ ms) :
    m.content.length ≤ (transcript ms).length := by
  have hmem : ∀ {parts : List Str} {p : Str}, p ∈ parts →
      p ∈ List.intersperse "\n\n".toList parts := by
    intro parts p hp
    induction parts with
    | nil => cases hp
    | cons a parts ih =>
        cases parts with
        | nil => exact hp
        | cons b parts =>
            rcases List.mem_cons.mp hp with rfl | hp
            · exact List.mem_cons_self
            · exact List.mem_cons_of_mem _ (List.mem_cons_of_mem _ (ih hp))
  have hpart : m.role ++ ": ".toList ++ m.content <:+: transcript ms :=
    List.infix_of_mem_flatten (hmem (List.mem_map_of_mem h))
  refine le_trans ?_ hpart.length_le
  rw [List.length_append]
  omega

theorem length_latestGoal_le (ms : List Message) :
    (latestGoal ms).length ≤ (transcript ms).length := by
  unfold latestGoal
  cases hm : ms.reverse.find? fun m => m.role = "user".toList with
  | none => exact Nat.zero_le _
  | some m =>
      have hmem : m ∈ ms := List.mem_reverse.mp (List.mem_of_find?_eq_some hm)
      exact (Str.length_strip_le m.content).trans (length_content_le hmem)

/-- The goal was stripped. -/
theorem strip_latestGoal (ms : List Message) : (latestGoal ms).strip = latestGoal ms := by
  unfold latestGoal
  cases ms.reverse.find? fun m => m.role = "user".toList with
  | none => rfl
  | some m => exact Str.strip_strip m.content

/-- The command has a text to copy: a stripped goal does not end in a space. -/
theorem extracted_ne_nil {goal : Str} (hstrip : goal.strip = goal)
    (h : (localExtractCommand ++ [' ']).isPrefixOf goal = true) :
    goal.drop (localExtractCommand.length + 1) ≠ [] := by
  obtain ⟨rest, rfl⟩ := List.isPrefixOf_iff_prefix.mp h
  intro hnil
  have hrest : rest = [] := by
    rw [show localExtractCommand.length + 1 = (localExtractCommand ++ [' ']).length by simp,
      List.drop_left] at hnil
    exact hnil
  have hspace : (localExtractCommand ++ [' ']).strip = localExtractCommand.strip :=
    Str.strip_append_space fun c hc => by
      rw [List.mem_singleton.mp hc]
      decide
  rw [hrest, List.append_nil, hspace] at hstrip
  have hlen := Str.length_strip_le localExtractCommand
  rw [hstrip] at hlen
  simp at hlen

/-- What becomes of a conversation that is accepted. -/
theorem toRequest_eq_ok {messages : Json} {request : RelayRequest}
    (h : toRequest messages = .ok request) : ∃ ms, checkMessages messages = .ok ms ∧
      (((localExtractCommand ++ [' ']).isPrefixOf (latestGoal ms) = true ∧
        request =
          { goal := "Extract the text source verbatim".toList
            sources := Dict.empty.set "text".toList
              ((latestGoal ms).drop (localExtractCommand.length + 1))
            localExtract := true }) ∨
      ((localExtractCommand ++ [' ']).isPrefixOf (latestGoal ms) = false ∧
        request =
          { goal := latestGoal ms
            sources := Dict.empty.set "conversation".toList (transcript ms) })) := by
  unfold toRequest at h
  obtain ⟨ms, hms, h⟩ := bind_eq_ok.mp h
  refine ⟨ms, hms, ?_⟩
  simp only at h
  split at h
  · rename_i hcommand
    cases h
    exact .inl ⟨hcommand, rfl⟩
  · rename_i hcommand
    cases h
    exact .inr ⟨(Bool.not_eq_true _).mp hcommand, rfl⟩

namespace Relay

variable {relay : Relay} {messages : Json} {emit onDelta : Bool} {x : Setup}

/-- **What a conversation asks is served**, unless its latest user message is blank or too
long; a text to be copied always is. -/
theorem chat_requestOk (h : relay.chat messages emit onDelta = .ok x) :
    (x.requestOk = true ↔ 1 ≤ x.goal.length ∧ x.goal.length ≤ 8000) ∧
      (x.localExtract = true → x.requestOk = true) := by
  obtain ⟨request, hrequest, rfl⟩ := map_eq_ok.mp h
  obtain ⟨ms, hms, hcases⟩ := toRequest_eq_ok hrequest
  obtain ⟨hne, hlen⟩ := checkMessages_eq_ok hms
  have htasks := relay.limits.maxTasks_pos
  have hsource : ∀ {key text : Str}, text ≠ [] → text.length ≤ (transcript ms).length →
      ∀ goal e, (relay.setup ⟨goal, Dict.empty.set key text, e⟩ emit onDelta).requestOk = true ↔
        1 ≤ goal.length ∧ goal.length ≤ 8000 := by
    intro key text htext hshort goal e
    have htotal : text.length ≤ 32000 := (hshort.trans hlen).trans (by decide)
    simp [Setup.requestOk, setup, Dict.set, Dict.setEntries, Dict.empty, Dict.values, htext,
      htasks, htotal]
  rcases hcases with ⟨hcommand, rfl⟩ | ⟨-, rfl⟩
  · have htext := extracted_ne_nil (strip_latestGoal ms) hcommand
    have hshort : ((latestGoal ms).drop (localExtractCommand.length + 1)).length ≤
        (transcript ms).length := by
      refine le_trans ?_ (length_latestGoal_le ms)
      simp
    exact ⟨hsource htext hshort _ _, fun _ => (hsource htext hshort _ _).mpr (by decide)⟩
  · obtain ⟨m, ms, rfl⟩ := List.exists_cons_of_ne_nil hne
    exact ⟨hsource (transcript_cons_ne_nil m ms) le_rfl _ _, fun he => by cases he⟩

/-- A conversation of one user message. -/
def userMessage (prompt : Str) : Json :=
  .arr [.obj [("role".toList, .str "user".toList), ("content".toList, .str prompt)]]

theorem toRequest_userMessage {prompt : Str} (hstrip : prompt.strip = prompt)
    (hcommand : (localExtractCommand ++ [' ']).isPrefixOf prompt = false)
    {request : RelayRequest} (h : toRequest (userMessage prompt) = .ok request) :
    request = { goal := prompt
                sources := Dict.empty.set "conversation".toList ("user: ".toList ++ prompt) } := by
  obtain ⟨ms, hms, hcases⟩ := toRequest_eq_ok h
  have hread : ms = [⟨"user".toList, prompt⟩] := by
    unfold checkMessages at hms
    simp only [userMessage, Json.arr?, Option.bind_some] at hms
    rw [show [Json.obj [("role".toList, .str "user".toList), ("content".toList, .str prompt)]].mapM
      readMessage = some [⟨"user".toList, prompt⟩] by rfl] at hms
    simp only at hms
    split at hms
    · cases hms
    · exact (Except.ok.inj hms).symm
  have hgoal : latestGoal ms = prompt := by
    rw [hread]
    exact hstrip
  have htranscript : transcript ms = "user: ".toList ++ prompt := by
    rw [hread]
    simp [transcript, Str.join, List.intercalate]
  rw [hgoal, htranscript, hcommand] at hcases
  rcases hcases with ⟨hfalse, -⟩ | ⟨-, hrequest⟩
  · cases hfalse
  · exact hrequest

/-- **A first message** is shown to the local models as it is. -/
theorem chat_text {prompt : Str} (h : relay.chat (userMessage prompt) emit onDelta = .ok x)
    (hne : prompt ≠ []) (hstrip : prompt.strip = prompt)
    (hcommand : (localExtractCommand ++ [' ']).isPrefixOf prompt = false) :
    x.text = prompt ∧ x.localExtract = false := by
  obtain ⟨request, hrequest, rfl⟩ := map_eq_ok.mp h
  obtain rfl := toRequest_userMessage hstrip hcommand hrequest
  refine ⟨?_, rfl⟩
  have hrole : Str.strip ("user: ".toList ++ prompt) = "user: ".toList ++ prompt :=
    Str.strip_append rfl hne hstrip
  have htext : ∀ {conversation : Str}, conversation.strip = "user: ".toList ++ prompt →
      taskText prompt (Dict.empty.set "conversation".toList conversation) = prompt := by
    intro conversation hconversation
    unfold taskText
    exact (if_pos rfl).trans (if_pos hconversation)
  exact htext hrole

end Relay

end HorizonRelay
