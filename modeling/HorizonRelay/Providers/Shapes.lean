import HorizonRelay.Providers.OpenAICompatible

/-!
# What a call makes of any answer

The server's JSON is untrusted.  A call either returns a reply that has a text, or raises
the relay's own error, as long as the answer keeps to the shapes its readers look into.

## Main definitions

* `TokenReads`, `TokenTooLarge` — the tokens that can be read, and those that overflow.
* `ChoiceFits`, `EventFits`, `LinesFit` — the shapes a stream may have.
* `Answer.Fits` — the answers a call stays inside its contract on.

## Main results

* `complete_contained_iff` — it does on those answers and on no others.
-/

namespace HorizonRelay

open Py

variable {lib : StdLib} {loads : Str → Loaded}

/-! ## Log-probabilities -/

/-- A token and a log-probability that `float` reads. -/
def PairReads (lib : StdLib) (a : Json) : Prop :=
  (∃ token, a.get? "token".toList = some token) ∧
    ∃ p, a.get? "logprob".toList = some p ∧ ∃ x, p.toFloat lib = .ok x

/-- A token whose log-probability is an integer too large for a float. -/
def PairTooLarge (a : Json) : Prop :=
  (∃ token, a.get? "token".toList = some token) ∧
    ∃ p, a.get? "logprob".toList = some p ∧ p.TooLarge

/-- A token that can be read, with all that are listed in its place. -/
def TokenReads (lib : StdLib) (t : Json) : Prop :=
  PairReads lib t ∧ (t.field "top_logprobs".toList).IterOrFalsy ∧
    ∀ a ∈ (t.field "top_logprobs".toList).items, PairReads lib a

/-- A token that reading overflows at. -/
def TokenTooLarge (lib : StdLib) (t : Json) : Prop :=
  PairTooLarge t ∨
    PairReads lib t ∧
      FailsFirst (PairReads lib) PairTooLarge (t.field "top_logprobs".toList).items

/-- The tokens of a choice. -/
def logprobItems (choice : Json) : List Json :=
  ((choice.field "logprobs".toList).field "content".toList).items

/-- Reading the tokens comes to an end before one that overflows. -/
def TokensFit (lib : StdLib) (tokens : List Json) : Prop :=
  ¬ FailsFirst (TokenReads lib) (TokenTooLarge lib) tokens

/-- The errors that reading log-probabilities can end in. -/
def OfLogprobs (e : PyError) : Prop := e ≠ .indexError ∧ e ≠ .recursionError

theorem tokenPair_eq_ok {a : Json} : (∃ r, tokenPair lib a = .ok r) ↔ PairReads lib a := by
  simp only [tokenPair, bind_eq_ok, Json.item_eq_ok, Json.asFloat_eq_ok, PairReads]
  constructor
  · rintro ⟨r, token, ht, p, hp, x, hx, -⟩
    exact ⟨⟨token, ht⟩, p, hp, x, hx⟩
  · rintro ⟨⟨token, ht⟩, p, hp, x, hx⟩
    exact ⟨_, token, ht, p, hp, x, hx, rfl⟩

theorem tokenPair_eq_overflow {a : Json} :
    tokenPair lib a = .error .overflowError ↔ PairTooLarge a := by
  simp only [tokenPair, bind_eq_error, Json.item_eq_ok, Json.asFloat_eq_overflowError,
    PairTooLarge]
  constructor
  · rintro (h | ⟨token, ht, h | ⟨p, hp, h | ⟨x, -, h⟩⟩⟩)
    · rcases Json.item_eq_error h with h | h <;> cases h
    · rcases Json.item_eq_error h with h | h <;> cases h
    · exact ⟨⟨token, ht⟩, p, hp, h⟩
    · cases h
  · rintro ⟨⟨token, ht⟩, p, hp, h⟩
    exact .inr ⟨token, ht, .inr ⟨p, hp, .inl h⟩⟩

theorem tokenPair_error {a : Json} {e : PyError} (h : tokenPair lib a = .error e) :
    OfLogprobs e := by
  simp only [tokenPair, bind_eq_error] at h
  rcases h with h | ⟨token, -, h | ⟨p, -, h | ⟨x, -, h⟩⟩⟩
  · rcases Json.item_eq_error h with rfl | rfl <;> exact ⟨by decide, by decide⟩
  · rcases Json.item_eq_error h with rfl | rfl <;> exact ⟨by decide, by decide⟩
  · rcases Json.asFloat_eq_error h with rfl | rfl | rfl <;> exact ⟨by decide, by decide⟩
  · cases h

/-- A pair is read only from an object. -/
theorem isObj_of_get? {v w : Json} {key : Str} (h : v.get? key = some w) : v.isObj = true := by
  cases v with
  | obj fields => rfl
  | _ => cases h

theorem PairReads.isObj {t : Json} (h : PairReads lib t) : t.isObj = true :=
  isObj_of_get? h.1.choose_spec

theorem tokenLogprob_eq_ok {t : Json} :
    (∃ r, tokenLogprob lib t = .ok r) ↔ TokenReads lib t := by
  simp only [tokenLogprob, bind_eq_ok, Json.getField_eq_ok, Json.iter_orElse_eq_ok, TokenReads]
  constructor
  · rintro ⟨r, pair, hpair, -, ⟨-, rfl⟩, alternatives, ⟨hiter, rfl⟩, top, htop, -⟩
    refine ⟨tokenPair_eq_ok.mp ⟨pair, hpair⟩, hiter, fun a ha => tokenPair_eq_ok.mp ?_⟩
    exact exists_mapM_eq_ok.mp ⟨top, htop⟩ a ha
  · rintro ⟨hpair, hiter, hread⟩
    obtain ⟨pair, hp⟩ := tokenPair_eq_ok.mpr hpair
    obtain ⟨top, htop⟩ := exists_mapM_eq_ok.mpr fun a ha => tokenPair_eq_ok.mpr (hread a ha)
    exact ⟨_, pair, hp, _, ⟨hpair.isObj, rfl⟩, _, ⟨hiter, rfl⟩, top, htop, rfl⟩

theorem tokenLogprob_eq_overflow {t : Json} :
    tokenLogprob lib t = .error .overflowError ↔ TokenTooLarge lib t := by
  simp only [tokenLogprob, bind_eq_error, Json.getField_eq_ok, Json.getField_eq_error,
    Json.iter_orElse_eq_ok, Json.iter_orElse_eq_error, tokenPair_eq_overflow, mapM_eq_error,
    tokenPair_eq_ok, reduceCtorEq, and_false, false_or, TokenTooLarge]
  refine or_congr_right ⟨?_, ?_⟩
  · rintro ⟨pair, hpair, -, ⟨-, rfl⟩, alternatives, ⟨-, rfl⟩, h | ⟨top, -, h⟩⟩
    · exact ⟨tokenPair_eq_ok.mp ⟨pair, hpair⟩, h⟩
    · cases h
  · rintro ⟨hpair, h⟩
    obtain ⟨pair, hp⟩ := tokenPair_eq_ok.mpr hpair
    have hiter := (Json.of_items_ne_nil h.ne_nil).2
    exact ⟨pair, hp, _, ⟨hpair.isObj, rfl⟩, _, ⟨fun _ => hiter, rfl⟩, .inl h⟩

theorem tokenLogprob_error {t : Json} {e : PyError} (h : tokenLogprob lib t = .error e) :
    OfLogprobs e := by
  simp only [tokenLogprob, bind_eq_error, Json.getField_eq_error, Json.iter_orElse_eq_error,
    mapM_eq_error] at h
  rcases h with h | ⟨pair, -,
    ⟨-, rfl⟩ | ⟨top, -, ⟨-, rfl⟩ | ⟨as, -, ⟨_, a, _, -, -, h⟩ | ⟨_, -, h⟩⟩⟩⟩
  · exact tokenPair_error h
  · exact ⟨by decide, by decide⟩
  · exact ⟨by decide, by decide⟩
  · exact tokenPair_error h
  · cases h

theorem readLogprobs_eq_overflow {choice : Json} :
    readLogprobs lib choice = .error .overflowError ↔ ¬ TokensFit lib (logprobItems choice) := by
  unfold TokensFit logprobItems
  rw [not_not]
  simp only [readLogprobs, bind_eq_error, Json.getField_orElse_eq_ok,
    Json.getField_orElse_eq_error]
  simp only [Json.getField_eq_ok, Json.getField_eq_error, reduceCtorEq, and_false, false_or]
  constructor
  · rintro ⟨-, ⟨-, rfl⟩, content, ⟨-, rfl⟩, h⟩
    split at h
    · simp only [bind_eq_error, Json.iter_eq_ok, Json.iter_eq_error, reduceCtorEq, and_false,
        false_or, mapM_eq_error, tokenLogprob_eq_ok, tokenLogprob_eq_overflow] at h
      obtain ⟨items, ⟨-, rfl⟩, h | ⟨tokens, -, h⟩⟩ := h
      · exact h
      · cases h
    · cases h
  · intro h
    -- what holds the tokens is there
    obtain ⟨htruthy, hiter⟩ := Json.of_items_ne_nil h.ne_nil
    have hlogprobs : (choice.field "logprobs".toList).isObj = true := by
      refine Json.isObj_of_field "content".toList fun hnull => ?_
      rw [hnull] at htruthy
      cases htruthy
    have hchoice : choice.isObj = true := by
      refine Json.isObj_of_field "logprobs".toList fun hnull => ?_
      rw [hnull] at hlogprobs
      cases hlogprobs
    refine ⟨_, ⟨hchoice, rfl⟩, _, ⟨fun _ => hlogprobs, rfl⟩, ?_⟩
    rw [if_pos htruthy]
    simp only [bind_eq_error, Json.iter_eq_ok, mapM_eq_error, tokenLogprob_eq_ok,
      tokenLogprob_eq_overflow]
    exact .inr ⟨_, ⟨hiter, rfl⟩, .inl h⟩

theorem readLogprobs_error {choice : Json} {e : PyError} (h : readLogprobs lib choice = .error e) :
    OfLogprobs e := by
  simp only [readLogprobs, bind_eq_error, Json.getField_orElse_eq_error] at h
  simp only [Json.getField_eq_error] at h
  rcases h with ⟨-, rfl⟩ | ⟨logprobs, -, ⟨-, rfl⟩ | ⟨content, -, h⟩⟩
  · exact ⟨by decide, by decide⟩
  · exact ⟨by decide, by decide⟩
  · split at h
    · simp only [bind_eq_error, Json.iter_eq_error, mapM_eq_error] at h
      rcases h with ⟨-, rfl⟩ | ⟨items, -, ⟨_, t, _, -, -, h⟩ | ⟨_, -, h⟩⟩
      · exact ⟨by decide, by decide⟩
      · exact tokenLogprob_error h
      · cases h
    · cases h

/-- The log-probabilities of a choice are read or given up, as long as none overflows. -/
theorem tokenLogprobs_of_fit {choice : Json} (h : TokensFit lib (logprobItems choice)) :
    ∃ tokens, tokenLogprobs lib choice = .ok tokens := by
  unfold tokenLogprobs
  cases hr : readLogprobs lib choice with
  | ok tokens => exact ⟨tokens, rfl⟩
  | error e =>
      have hne : e ≠ .overflowError := by
        rintro rfl
        exact readLogprobs_eq_overflow.mp hr h
      obtain ⟨hindex, hrec⟩ := readLogprobs_error hr
      refine ⟨none, if_pos ?_⟩
      cases e with
      | indexError => exact absurd rfl hindex
      | overflowError => exact absurd rfl hne
      | recursionError => exact absurd rfl hrec
      | _ => decide

theorem tokenLogprobs_of_not_fit {choice : Json} (h : ¬ TokensFit lib (logprobItems choice)) :
    tokenLogprobs lib choice = .error .overflowError := by
  unfold tokenLogprobs
  rw [readLogprobs_eq_overflow.mpr h]
  rfl

/-! ## The complete reply -/

/-- The first choice of a body, and its message. -/
def messageOf (data : Json) : Option (Json × Json) := do
  let choices ← data.get? "choices".toList
  let choice ← (← choices.arr?).head?
  let message ← choice.get? "message".toList
  pure (choice, message)

/-- The steps of the reader down to the message. -/
def reachMessage (data : Json) : Except PyError (Json × Json) := do
  let choices ← data.item "choices".toList
  let choice ← choices.first
  let message ← choice.item "message".toList
  pure (choice, message)

theorem reachMessage_eq_ok {data choice message : Json} :
    reachMessage data = .ok (choice, message) ↔ messageOf data = some (choice, message) := by
  simp only [reachMessage, messageOf, bind_eq_ok, Json.item_eq_ok]
  cases data.get? "choices".toList with
  | none => simp
  | some choices =>
      cases choices with
      | arr vs =>
          cases vs with
          | nil => simp [Json.first, Json.arr?]
          | cons v vs =>
              simp [Json.first, Json.arr?, Option.bind_eq_some_iff, pure, Except.pure]
              constructor
              · rintro ⟨rfl, hm⟩
                exact ⟨hm, rfl⟩
              · rintro ⟨hm, rfl⟩
                exact ⟨rfl, hm⟩
      | str s =>
          cases s with
          | nil => simp [Json.first, Json.arr?]
          | cons c cs => simp [Json.first, Json.arr?, Json.get?, Json.obj?]
      | _ => simp [Json.first, Json.arr?]

theorem reachMessage_error {data : Json} {e : PyError} (h : reachMessage data = .error e) :
    e ∈ bodyErrors := by
  simp only [reachMessage, bind_eq_error] at h
  rcases h with h | ⟨choices, -, h | ⟨choice, -, h | ⟨message, -, h⟩⟩⟩
  · rcases Json.item_eq_error h with rfl | rfl <;> decide
  · rcases Json.first_error h with rfl | rfl | rfl <;> decide
  · rcases Json.item_eq_error h with rfl | rfl <;> decide
  · cases h

theorem parseResponse_ok (lib : StdLib) (data : Json) : parseResponse lib (.ok data) =
    (reachMessage data >>= fun (choice, message) => do
      let usage ← data.getField "usage".toList
      let content ← message.getField "content".toList
      let reasoning ← message.getField "reasoning_content".toList
      let tokens ← tokenLogprobs lib choice
      let finish ← choice.getField "finish_reason".toList
      pure { content, reasoning := reasoning.orElse (.str []), tokens, finish
             usage := (usage.orElse (.obj [])).obj?.getD [] }) := by
  simp only [parseResponse, reachMessage, bind_assoc, pure_bind, Except.mapError]
  rfl

/-- The parts of a body, but for its tokens. -/
def bodyParts (data choice message : Json) (tokens : Option (List TokenLogprob)) : Received where
  content := message.field "content".toList
  reasoning := (message.field "reasoning_content".toList).orElse (.str [])
  tokens := tokens
  finish := choice.field "finish_reason".toList
  usage := ((data.field "usage".toList).orElse (.obj [])).obj?.getD []

/-- A body with a message is read to its end if the message is an object and the tokens are
read. -/
theorem parseResponse_of_message (lib : StdLib) {data choice message : Json}
    (hm : messageOf data = some (choice, message)) :
    parseResponse lib (.ok data) =
      if message.isObj then (tokenLogprobs lib choice).map (bodyParts data choice message)
      else .error .attributeError := by
  have hreach := reachMessage_eq_ok.mpr hm
  rw [parseResponse_ok, hreach]
  simp only [reachMessage, bind_eq_ok, Json.item_eq_ok] at hreach
  obtain ⟨choices, hdata, choice', -, message', hchoice, hpair⟩ := hreach
  cases hpair
  have hget : ∀ {v : Json}, v.isObj = true → ∀ key, v.getField key = .ok (v.field key) :=
    fun h key => Json.getField_eq_ok.mpr ⟨h, rfl⟩
  simp only [ok_bind, hget (isObj_of_get? hdata)]
  split
  · rename_i hobj
    simp only [ok_bind, hget hobj, hget (isObj_of_get? hchoice)]
    cases tokenLogprobs lib choice with
    | ok tokens => rfl
    | error e => rfl
  · rename_i hobj
    rw [Json.getField_eq_error.mpr ⟨hobj, rfl⟩]
    rfl

/-- A body without a message is refused with an error that the reader catches. -/
theorem parseResponse_of_no_message (lib : StdLib) {data : Json} (hm : messageOf data = none) :
    ∃ e ∈ bodyErrors, parseResponse lib (.ok data) = .error e := by
  rw [parseResponse_ok]
  cases hr : reachMessage data with
  | ok found =>
      rw [reachMessage_eq_ok.mp hr] at hm
      cases hm
  | error e => exact ⟨e, reachMessage_error hr, rfl⟩

/-! ## The stream -/

/-- A choice whose parts are where the reader looks for them. -/
structure ChoiceFits (c : Json) : Prop where
  isObj : c.isObj = true
  delta : (c.field "delta".toList).ObjOrFalsy
  logprobs : (c.field "logprobs".toList).ObjOrFalsy
  content : ((c.field "logprobs".toList).field "content".toList).IterOrFalsy

/-- An event whose choices the reader can go through. -/
structure EventFits (v : Json) : Prop where
  isObj : v.isObj = true
  choices : (v.field "choices".toList).IterOrFalsy
  each : ∀ c ∈ (v.field "choices".toList).items, ChoiceFits c

namespace Stream

/-- What a choice that fits adds. -/
def add (s : Stream) (c : Json) : Stream :=
  let s := { s with finish := (c.field "finish_reason".toList).orElse s.finish
                    tokens := s.tokens ++ logprobItems c }
  let s := s.reason ((c.field "delta".toList).field "reasoning_content".toList)
  s.write ((c.field "delta".toList).field "content".toList)

/-- What an event that fits adds. -/
def addEvent (s : Stream) (v : Json) : Stream :=
  (v.field "choices".toList).items.foldl add (s.setUsage (v.field "usage".toList))

theorem choice_of_fits (s : Stream) {c : Json} (h : ChoiceFits c) : s.choice c = .ok (s.add c) := by
  have hget : ∀ key, c.getField key = .ok (c.field key) :=
    fun key => Json.getField_eq_ok.mpr ⟨h.isObj, rfl⟩
  have hdelta : ∀ key, ((c.field "delta".toList).orElse (.obj [])).getField key =
      .ok ((c.field "delta".toList).field key) :=
    fun key => Json.getField_orElse_eq_ok.mpr ⟨h.delta, rfl⟩
  simp only [choice, hget, ok_bind, hdelta, Json.getField_orElse_eq_ok.mpr ⟨h.logprobs, rfl⟩,
    Json.iter_orElse_eq_ok.mpr ⟨h.content, rfl⟩]
  rfl

theorem choice_of_not_fits (s : Stream) {c : Json} (h : ¬ ChoiceFits c) :
    ∃ e, s.choice c = .error e := by
  rw [← forall_ne_ok]
  intro t ht
  simp only [choice, bind_eq_ok, Json.getField_orElse_eq_ok, Json.iter_orElse_eq_ok] at ht
  simp only [Json.getField_eq_ok] at ht
  obtain ⟨-, ⟨hobj, rfl⟩, -, -, -, ⟨-, rfl⟩, -, ⟨hlogprobs, rfl⟩, -, ⟨hcontent, -⟩, -,
    ⟨hdelta, -⟩, -⟩ := ht
  exact h ⟨hobj, hdelta, hlogprobs, hcontent⟩

theorem event_of_fits (s : Stream) {v : Json} (h : EventFits v) :
    s.event v = .ok (s.addEvent v) := by
  have hget : ∀ key, v.getField key = .ok (v.field key) :=
    fun key => Json.getField_eq_ok.mpr ⟨h.isObj, rfl⟩
  simp only [event, hget, ok_bind, Json.iter_orElse_eq_ok.mpr ⟨h.choices, rfl⟩]
  exact foldlM_eq_foldl (fun s _ => s.choice_of_fits) h.each _

theorem event_of_not_fits (s : Stream) {v : Json} (h : ¬ EventFits v) :
    ∃ e, s.event v = .error e := by
  rw [← forall_ne_ok]
  intro t ht
  simp only [event, bind_eq_ok, Json.getField_eq_ok, Json.iter_orElse_eq_ok] at ht
  obtain ⟨-, ⟨hobj, rfl⟩, -, ⟨-, rfl⟩, -, ⟨hiter, rfl⟩, ht⟩ := ht
  refine h ⟨hobj, hiter, ?_⟩
  by_contra heach
  obtain ⟨e, he⟩ := foldlM_fails (fun s _ => s.choice_of_fits) (fun s _ => s.choice_of_not_fits)
    heach (s.setUsage (v.field "usage".toList))
  rw [he] at ht
  cases ht

end Stream

/-- The texts after `data:`, up to the one that ends the stream. -/
def chunksOf : List Str → List Str
  | [] => []
  | line :: lines =>
      if "data:".toList.isPrefixOf line then
        let chunk := Str.strip (line.drop "data:".toList.length)
        if chunk = "[DONE]".toList then [] else chunk :: chunksOf lines
      else chunksOf lines

/-- The events of a stream. -/
def eventsOf (loads : Str → Loaded) (lines : List Str) : List Json :=
  (chunksOf lines).filterMap fun chunk => (loads chunk).toOption

/-- A chunk that is skipped, or an event that fits. -/
def ChunkFits (loads : Str → Loaded) (chunk : Str) : Prop :=
  loads chunk ≠ .error .recursionError ∧ ∀ v, loads chunk = .ok v → EventFits v

/-- Every line that can be read is an event that fits, and none is nested too deep. -/
def LinesFit (loads : Str → Loaded) (lines : List Str) : Prop :=
  ∀ chunk ∈ chunksOf lines, ChunkFits loads chunk

/-- The text of one line, read. -/
def readChunk (loads : Str → Loaded) (s : Stream) (chunk : Str) : Except PyError Stream :=
  match loads chunk with
  | .error .valueError => .ok s
  | .error .recursionError => .error .recursionError
  | .ok event => s.event event

theorem readLines_eq (loads : Str → Loaded) (lines : List Str) (s : Stream) :
    readLines loads lines s = (chunksOf lines).foldlM (readChunk loads) s := by
  induction lines generalizing s with
  | nil => rfl
  | cons line lines ih =>
      simp only [readLines, chunksOf]
      by_cases hdata : "data:".toList.isPrefixOf line = true
      · simp only [if_pos hdata]
        split
        · rfl
        · rw [List.foldlM_cons, readChunk]
          rcases loads _ with (_ | _) | v
          · exact ih s
          · rfl
          · exact bind_congr ih
      · simp only [if_neg hdata]
        exact ih s

theorem readChunk_of_fits (s : Stream) {chunk : Str} (h : ChunkFits loads chunk) :
    readChunk loads s chunk = .ok ((loads chunk).toOption.elim s s.addEvent) := by
  unfold ChunkFits at h
  unfold readChunk
  rcases hl : loads chunk with (_ | _) | v
  · rfl
  · exact absurd hl h.1
  · exact s.event_of_fits (h.2 v hl)

theorem readChunk_of_not_fits (s : Stream) {chunk : Str} (h : ¬ ChunkFits loads chunk) :
    ∃ e, readChunk loads s chunk = .error e := by
  unfold ChunkFits at h
  unfold readChunk
  rcases hl : loads chunk with (_ | _) | v
  · simp [hl] at h
  · exact ⟨_, rfl⟩
  · rw [hl] at h
    simp only [ne_eq, reduceCtorEq, not_false_eq_true, true_and, Except.ok.injEq,
      forall_eq'] at h
    exact s.event_of_not_fits h

theorem foldl_chunks (loads : Str → Loaded) (chunks : List Str) (s : Stream) :
    chunks.foldl (fun s chunk => (loads chunk).toOption.elim s s.addEvent) s =
      (chunks.filterMap fun chunk => (loads chunk).toOption).foldl Stream.addEvent s := by
  induction chunks generalizing s with
  | nil => rfl
  | cons chunk chunks ih =>
      rw [List.foldl_cons, ih, List.filterMap_cons]
      cases (loads chunk).toOption with
      | none => rfl
      | some v => rfl

theorem readLines_of_fit {lines : List Str} (h : LinesFit loads lines) (s : Stream) :
    readLines loads lines s = .ok ((eventsOf loads lines).foldl Stream.addEvent s) := by
  rw [readLines_eq, foldlM_eq_foldl (fun s _ => readChunk_of_fits s) h, foldl_chunks]
  rfl

theorem readLines_of_not_fit {lines : List Str} (h : ¬ LinesFit loads lines) (s : Stream) :
    ∃ e, readLines loads lines s = .error e := by
  rw [readLines_eq]
  exact foldlM_fails (fun s _ => readChunk_of_fits s) (fun s _ => readChunk_of_not_fits s) h s

/-! What a stream that fits has brought, as a whole. -/

/-- The text of a value that is one. -/
def textOf (v : Json) : Str := v.str?.getD []

/-- The choices of a stream, in order. -/
def choicesOf (loads : Str → Loaded) (lines : List Str) : List Json :=
  (eventsOf loads lines).flatMap fun v => (v.field "choices".toList).items

/-- The chunk of text a choice brings. -/
def choiceText (c : Json) : Str := textOf ((c.field "delta".toList).field "content".toList)

/-- The text of a stream. -/
def streamText (loads : Str → Loaded) (lines : List Str) : Str :=
  ((choicesOf loads lines).map choiceText).flatten

/-- The tokens of a stream. -/
def streamTokens (loads : Str → Loaded) (lines : List Str) : List Json :=
  (choicesOf loads lines).flatMap logprobItems

/-- Why a stream ended: the last reason that is given. -/
def streamFinish (loads : Str → Loaded) (lines : List Str) : Json :=
  (choicesOf loads lines).foldl (fun f c => (c.field "finish_reason".toList).orElse f) .null

namespace Stream

/-- A chunk of text changes nothing but the text and what is told of it. -/
theorem addContent_frame (s : Stream) (text : Str) : ∃ thinking deltas,
    s.addContent text = { s with content := s.content ++ text, thinking, deltas } := by
  unfold addContent onDeltaIf
  dsimp only
  split
  · split
    · exact ⟨_, _, rfl⟩
    · split <;> split <;> exact ⟨_, _, rfl⟩
  · exact ⟨_, _, rfl⟩

theorem write_frame (s : Stream) (v : Json) : ∃ thinking deltas,
    s.write v = { s with content := s.content ++ textOf v, thinking, deltas } := by
  have hnone : ∃ thinking deltas, s = { s with content := s.content ++ [], thinking, deltas } :=
    ⟨s.thinking, s.deltas, by rw [List.append_nil]⟩
  cases v with
  | str text =>
      cases text with
      | nil => exact hnone
      | cons c text => exact s.addContent_frame (c :: text)
  | _ => exact hnone

theorem reason_frame (s : Stream) (v : Json) : ∃ deltas,
    s.reason v = { s with reasoning := s.reasoning ++ textOf v, deltas } := by
  have hnone : ∃ deltas, s = { s with reasoning := s.reasoning ++ [], deltas } :=
    ⟨s.deltas, by rw [List.append_nil]⟩
  cases v with
  | str text =>
      cases text with
      | nil => exact hnone
      | cons c text => exact ⟨_, rfl⟩
  | _ => exact hnone

/-- A choice adds its text, its tokens and its reason to end, whatever else it does. -/
theorem add_frame (s : Stream) (c : Json) : ∃ reasoning thinking deltas,
    s.add c = { s with content := s.content ++ choiceText c, reasoning, thinking, deltas
                       tokens := s.tokens ++ logprobItems c
                       finish := (c.field "finish_reason".toList).orElse s.finish } := by
  unfold add
  dsimp only
  obtain ⟨deltas, hr⟩ := reason_frame
    { s with finish := (c.field "finish_reason".toList).orElse s.finish
             tokens := s.tokens ++ logprobItems c }
    ((c.field "delta".toList).field "reasoning_content".toList)
  obtain ⟨thinking, deltas', hw⟩ := write_frame
    { s with finish := (c.field "finish_reason".toList).orElse s.finish
             tokens := s.tokens ++ logprobItems c
             reasoning := s.reasoning ++
               textOf ((c.field "delta".toList).field "reasoning_content".toList)
             deltas := deltas }
    ((c.field "delta".toList).field "content".toList)
  rw [hr, hw]
  exact ⟨_, _, _, rfl⟩

theorem setUsage_frame (s : Stream) (v : Json) : ∃ usage, s.setUsage v = { s with usage } := by
  cases v with
  | obj fields => exact ⟨_, rfl⟩
  | _ => exact ⟨_, rfl⟩

/-- What the choices of a stream do to a part of its state, the whole stream does. -/
theorem foldl_addEvent {β : Type} (part : Stream → β) (step : β → Json → β)
    (hadd : ∀ s c, part (s.add c) = step (part s) c)
    (husage : ∀ s u, part (s.setUsage u) = part s) (events : List Json) (s : Stream) :
    part (events.foldl addEvent s) =
      (events.flatMap fun v => (v.field "choices".toList).items).foldl step (part s) := by
  induction events generalizing s with
  | nil => rfl
  | cons v events ih =>
      rw [List.foldl_cons, ih, List.flatMap_cons, List.foldl_append, addEvent,
        ← List.foldl_hom part (fun s c => (hadd s c).symm), husage]

end Stream

/-- What has come once a stream that fits is read. -/
def streamEnd (loads : Str → Loaded) (lines : List Str) : Stream :=
  (eventsOf loads lines).foldl Stream.addEvent {}

theorem streamEnd_content (loads : Str → Loaded) (lines : List Str) :
    (streamEnd loads lines).content = streamText loads lines := by
  unfold streamEnd
  rw [Stream.foldl_addEvent Stream.content (fun text c => text ++ choiceText c)]
  · rw [List.foldl_append_eq_append]
    rfl
  · intro s c
    obtain ⟨_, _, _, h⟩ := s.add_frame c
    rw [h]
  · intro s u
    obtain ⟨_, h⟩ := s.setUsage_frame u
    rw [h]

theorem streamEnd_tokens (loads : Str → Loaded) (lines : List Str) :
    (streamEnd loads lines).tokens = streamTokens loads lines := by
  unfold streamEnd
  rw [Stream.foldl_addEvent Stream.tokens (fun tokens c => tokens ++ logprobItems c)]
  · rw [List.foldl_append_eq_append, ← List.flatMap_def]
    rfl
  · intro s c
    obtain ⟨_, _, _, h⟩ := s.add_frame c
    rw [h]
  · intro s u
    obtain ⟨_, h⟩ := s.setUsage_frame u
    rw [h]

theorem streamEnd_finish (loads : Str → Loaded) (lines : List Str) :
    (streamEnd loads lines).finish = streamFinish loads lines := by
  unfold streamEnd
  rw [Stream.foldl_addEvent Stream.finish
    (fun finish c => (c.field "finish_reason".toList).orElse finish)]
  · rfl
  · intro s c
    obtain ⟨_, _, _, h⟩ := s.add_frame c
    rw [h]
  · intro s u
    obtain ⟨_, h⟩ := s.setUsage_frame u
    rw [h]

/-! ## The whole call -/

/-- The answer a text settles on, after its reasoning. -/
def answerText (content : Str) : Str :=
  let rest := ((thinkBlock content).map Prod.snd).getD content
  Str.strip (((findMarker rest).map fun found => found.2.2).getD rest)

/-- All the reasoning of a reply. -/
def thinkingText (content reasoning : Str) : Str :=
  let thinking := (thinkBlock content).elim reasoning fun block =>
    Str.strip (reasoning ++ '\n' :: block.1)
  let rest := ((thinkBlock content).map Prod.snd).getD content
  Str.strip ((findMarker rest).elim thinking fun found => Str.strip (thinking ++ '\n' :: found.1))

theorem splitThinking_str (content reasoning : Str) : splitThinking content (.str reasoning) =
    .ok (thinkingText content reasoning, answerText content) := by
  unfold splitThinking answerText thinkingText
  cases thinkBlock content with
  | none =>
      cases hm : findMarker content with
      | none => simp [hm, pure, Except.pure, bind, Except.bind]
      | some found => simp [hm, pure, Except.pure, bind, Except.bind, addThinking]
  | some block =>
      cases hm : findMarker block.2 with
      | none => simp [hm, pure, Except.pure, bind, Except.bind, addThinking]
      | some found => simp [hm, pure, Except.pure, bind, Except.bind, addThinking]

theorem addThinking_not_str {thinking : Json} (h : ∀ s, thinking ≠ .str s) (text : Str) :
    addThinking thinking text = .error .typeError := by
  cases thinking with
  | str s => exact absurd rfl (h s)
  | _ => rfl

theorem splitThinking_not_str {reasoning : Json} (h : ∀ s, reasoning ≠ .str s) (content : Str) :
    ∃ e, splitThinking content reasoning = .error e := by
  unfold splitThinking
  cases thinkBlock content with
  | some block =>
      simp only [addThinking_not_str h]
      exact ⟨_, rfl⟩
  | none =>
      cases hm : findMarker content with
      | some found =>
          simp only [pure_bind, hm, addThinking_not_str h]
          exact ⟨_, rfl⟩
      | none =>
          simp only [pure_bind, hm]
          cases reasoning with
          | str s => exact absurd rfl (h s)
          | _ => exact ⟨_, rfl⟩

/-- The answer is not parsed, or not nested too deep for that. -/
def NotDeep (loads : Str → Loaded) (operation : Operation) (text : Str) : Prop :=
  operation.structured = true → loads (unfenced (answerText text)) ≠ .error .recursionError

/-- A message that can be read to its end, and whose parts are texts if they are used. -/
structure MessageFits (lib : StdLib) (loads : Str → Loaded) (operation : Operation)
    (choice message : Json) : Prop where
  isObj : message.isObj = true
  tokens : TokensFit lib (logprobItems choice)
  used : ∀ text,
    OpenAICompatibleProvider.usableText (message.field "content".toList)
      (choice.field "finish_reason".toList) = some text →
    ((message.field "reasoning_content".toList).truthy = true →
      ∃ s, message.field "reasoning_content".toList = .str s) ∧ NotDeep loads operation text

/-- The answers a call stays inside its contract on. -/
def Answer.Fits (lib : StdLib) (loads : Str → Loaded) (operation : Operation) : Answer → Prop
  | .body loaded => loaded ≠ .error .recursionError ∧ ∀ data choice message,
      loaded = .ok data → messageOf data = some (choice, message) →
        MessageFits lib loads operation choice message
  | .lines ls => LinesFit loads ls ∧ TokensFit lib (streamTokens loads ls) ∧ ∀ text,
      OpenAICompatibleProvider.usableText (.str (streamText loads ls)) (streamFinish loads ls) =
        some text → NotDeep loads operation text

/-- The content of an answer, before its reasoning is split off. -/
def Answer.content (loads : Str → Loaded) : Answer → Option Json
  | .body loaded => do
      let data ← loaded.toOption
      let (_, message) ← messageOf data
      pure (message.field "content".toList)
  | .lines ls => some (.str (streamText loads ls))

/-- A call returns a reply that had a text, or raises the relay's own error. -/
def Contained (content : Option Json) (r : Except Exc Completion) : Prop :=
  (∃ c text, r = .ok c ∧ content = some (.str text) ∧ text.strip ≠ []) ∨
    ∃ e, r = .error e ∧ e.isRelayError = true

theorem contained_relayError (content : Option Json) (msg : Str) :
    Contained content (.error (relayError msg)) := .inr ⟨_, rfl, rfl⟩

theorem not_contained_pyError (content : Option Json) (name : Str) :
    ¬ Contained content (.error (pyError name)) := by
  rintro (⟨c, text, h, -⟩ | ⟨e, h, he⟩)
  · cases h
  · cases h
    cases he

namespace OpenAICompatibleProvider

/-- The provider can be asked: it has an endpoint for the tier, and the cloud's has a key. -/
def Serves (p : OpenAICompatibleProvider) (tier : Tier) : Prop :=
  ∃ e, p.endpoint tier = some e ∧ ¬ (tier = .cloud ∧ e.key = [])

theorem replyValue_ok {operation : Operation} {text : Str}
    (h : NotDeep loads operation text) :
    ∃ v, replyValue loads operation (answerText text) = .ok v := by
  unfold replyValue
  by_cases hs : operation.structured = true
  · have hdeep := h hs
    rw [if_pos hs]
    rcases hl : loads (unfenced (answerText text)) with (_ | _) | v
    · exact ⟨_, rfl⟩
    · exact absurd hl hdeep
    · exact ⟨_, rfl⟩
  · rw [if_neg hs]
    exact ⟨_, rfl⟩

theorem replyValue_error {operation : Operation} {text : Str}
    (h : ¬ NotDeep loads operation text) :
    replyValue loads operation (answerText text) = .error .recursionError := by
  unfold NotDeep at h
  rw [Classical.not_imp, not_not] at h
  rw [replyValue, if_pos h.1, h.2]

/-- A reply is made of what was received when its reasoning is a text and its answer is not
nested too deep. -/
theorem completion_iff (endpoint : Endpoint) (operation : Operation) (text : Str) (r : Received) :
    (∃ c, completion loads endpoint operation text r = .ok c) ↔
      (∃ s, r.reasoning = .str s) ∧ NotDeep loads operation text := by
  simp only [completion, bind_eq_ok]
  constructor
  · rintro ⟨c, ⟨thinking, answer⟩, hsplit, value, hvalue, -⟩
    have hstr : ∃ s, r.reasoning = .str s := by
      by_contra hno
      rw [not_exists] at hno
      obtain ⟨e, he⟩ := splitThinking_not_str hno text
      rw [he] at hsplit
      cases hsplit
    obtain ⟨s, hs⟩ := hstr
    refine ⟨⟨s, hs⟩, ?_⟩
    rw [hs, splitThinking_str] at hsplit
    cases hsplit
    by_contra hdeep
    rw [replyValue_error hdeep] at hvalue
    cases hvalue
  · rintro ⟨⟨s, hs⟩, hdeep⟩
    obtain ⟨value, hvalue⟩ := replyValue_ok hdeep
    rw [hs]
    exact ⟨_, _, splitThinking_str text s, value, hvalue, rfl⟩

theorem usableText_eq_some {content finish : Json} {text : Str}
    (h : usableText content finish = some text) : content = .str text ∧ text.strip ≠ [] := by
  unfold usableText at h
  rw [Option.filter_eq_some_iff] at h
  refine ⟨Json.str?_eq_some.mp h.1, ?_⟩
  intro hnil
  simp [hnil] at h

/-- What a call does with what it has received. -/
def settle (loads : Str → Loaded) (endpoint : Endpoint) (tier : Tier) (operation : Operation)
    (r : Received) : Except Exc Completion :=
  match usableText r.content r.finish with
  | none =>
      .error (relayError (tier.title ++ " response was empty or reached its token limit".toList))
  | some content =>
      (completion loads endpoint operation content r).mapError fun e => pyError e.name

theorem contained_settle (endpoint : Endpoint) (tier : Tier) (operation : Operation)
    (r : Received) : Contained (some r.content) (settle loads endpoint tier operation r) ↔
      ∀ text, usableText r.content r.finish = some text →
        (∃ s, r.reasoning = .str s) ∧ NotDeep loads operation text := by
  unfold settle
  cases hu : usableText r.content r.finish with
  | none =>
      refine iff_of_true (contained_relayError _ _) ?_
      intro text h
      cases h
  | some text =>
      simp only [Option.some.injEq, forall_eq', ← completion_iff endpoint operation text r]
      cases completion loads endpoint operation text r with
      | ok c =>
          obtain ⟨hcontent, htext⟩ := usableText_eq_some hu
          exact iff_of_true (.inl ⟨c, text, rfl, congrArg some hcontent, htext⟩) ⟨c, rfl⟩
      | error e =>
          refine iff_of_false (not_contained_pyError _ _) ?_
          rintro ⟨c, h⟩
          cases h

theorem complete_of_serves {p : OpenAICompatibleProvider} {tier : Tier} {endpoint : Endpoint}
    (hp : p.endpoint tier = some endpoint) (hkey : ¬ (tier = .cloud ∧ endpoint.key = []))
    (operation : Operation) (exchange : Exchange) :
    p.complete lib loads tier operation exchange =
      (receive lib loads tier exchange >>= settle loads endpoint tier operation) := by
  unfold complete
  rw [hp]
  exact if_neg hkey

theorem complete_of_not_serves (lib : StdLib) (loads : Str → Loaded)
    {p : OpenAICompatibleProvider} {tier : Tier} (h : ¬ p.Serves tier) (operation : Operation)
    (exchange : Exchange) :
    ∃ msg, p.complete lib loads tier operation exchange = .error (relayError msg) := by
  unfold complete
  cases hp : p.endpoint tier with
  | none => exact ⟨_, rfl⟩
  | some endpoint =>
      have hkey : tier = .cloud ∧ endpoint.key = [] := by
        by_contra hkey
        exact h ⟨endpoint, hp, hkey⟩
      exact ⟨_, if_pos hkey⟩

theorem readResponse_of_caught {loaded : Loaded} {e : PyError}
    (h : parseResponse lib loaded = .error e) (he : e ∈ bodyErrors) (tier : Tier) :
    ∃ msg, readResponse lib loaded tier = .error (relayError msg) := by
  unfold readResponse
  rw [h]
  exact ⟨_, congrArg Except.error (if_pos he)⟩

theorem readResponse_of_uncaught {loaded : Loaded} {e : PyError}
    (h : parseResponse lib loaded = .error e) (he : e ∉ bodyErrors) (tier : Tier) :
    readResponse lib loaded tier = .error (pyError e.name) := by
  unfold readResponse
  rw [h]
  exact congrArg Except.error (if_neg he)

theorem readResponse_of_ok {loaded : Loaded} {r : Received}
    (h : parseResponse lib loaded = .ok r) (tier : Tier) :
    readResponse lib loaded tier = .ok r := by
  unfold readResponse
  rw [h]

/-- A value or an empty text is a text when the value is one or is false to Python. -/
theorem orElse_str_iff {v : Json} :
    (∃ s, v.orElse (.str []) = .str s) ↔ (v.truthy = true → ∃ s, v = .str s) := by
  unfold Json.orElse
  split
  · rename_i h
    simp [h]
  · rename_i h
    simp [h]

theorem contained_message (endpoint : Endpoint) (tier : Tier) (operation : Operation)
    {data choice message : Json} (hm : messageOf data = some (choice, message)) :
    Contained (some (message.field "content".toList))
      (readResponse lib (.ok data) tier >>= settle loads endpoint tier operation) ↔
        MessageFits lib loads operation choice message := by
  have hparse := parseResponse_of_message lib hm
  by_cases hobj : message.isObj = true
  · rw [if_pos hobj] at hparse
    by_cases htok : TokensFit lib (logprobItems choice)
    · obtain ⟨tokens, ht⟩ := tokenLogprobs_of_fit htok
      rw [ht] at hparse
      rw [readResponse_of_ok hparse, ok_bind]
      refine (contained_settle endpoint tier operation
        (bodyParts data choice message tokens)).trans ?_
      simp only [bodyParts, orElse_str_iff]
      exact ⟨fun h => ⟨hobj, htok, h⟩, fun h => h.used⟩
    · rw [tokenLogprobs_of_not_fit htok] at hparse
      rw [readResponse_of_uncaught hparse (by decide)]
      exact iff_of_false (not_contained_pyError _ _) fun h => htok h.tokens
  · rw [if_neg hobj] at hparse
    rw [readResponse_of_uncaught hparse (by decide)]
    exact iff_of_false (not_contained_pyError _ _) fun h => hobj h.isObj

/-- A body is received, or refused with the relay's own error, or lets another one out. -/
theorem contained_body (endpoint : Endpoint) (tier : Tier) (operation : Operation)
    (loaded : Loaded) :
    Contained ((Answer.body loaded).content loads)
      (readResponse lib loaded tier >>= settle loads endpoint tier operation) ↔
        (Answer.body loaded).Fits lib loads operation := by
  rcases loaded with (_ | _) | data
  · have hparse : parseResponse lib (.error .valueError) = .error .valueError := rfl
    obtain ⟨msg, h⟩ := readResponse_of_caught hparse (by decide) tier
    rw [h]
    refine iff_of_true (contained_relayError _ _) ⟨(fun h => nomatch h), ?_⟩
    intro data choice message h
    cases h
  · have hparse : parseResponse lib (.error .recursionError) = .error .recursionError := rfl
    rw [readResponse_of_uncaught hparse (by decide)]
    exact iff_of_false (not_contained_pyError _ _) fun h => h.1 rfl
  · cases hm : messageOf data with
    | none =>
        obtain ⟨e, he, hparse⟩ := parseResponse_of_no_message lib hm
        obtain ⟨msg, h⟩ := readResponse_of_caught hparse he tier
        rw [h]
        refine iff_of_true (contained_relayError _ _) ⟨(fun h => nomatch h), ?_⟩
        intro data' choice message h hm'
        cases h
        rw [hm] at hm'
        cases hm'
    | some found =>
        obtain ⟨choice, message⟩ := found
        have hcontent : (Answer.body (.ok data)).content loads =
            some (message.field "content".toList) := by
          simp [Answer.content, Except.toOption, hm]
        rw [hcontent, contained_message endpoint tier operation hm]
        constructor
        · intro h
          refine ⟨(fun h => nomatch h), ?_⟩
          intro data' choice' message' hdata hm'
          cases hdata
          rw [hm] at hm'
          cases hm'
          exact h
        · exact fun h => h.2 data choice message rfl hm

theorem contained_lines (endpoint : Endpoint) (tier : Tier) (operation : Operation)
    (ls : List Str) :
    Contained ((Answer.lines ls).content loads)
      ((readStream lib loads ls).mapError (fun e => pyError e.name) >>=
        settle loads endpoint tier operation) ↔
        (Answer.lines ls).Fits lib loads operation := by
  unfold readStream
  by_cases hfit : LinesFit loads ls
  · rw [readLines_of_fit hfit, ok_bind]
    have hfold : (eventsOf loads ls).foldl Stream.addEvent {} = streamEnd loads ls := rfl
    rw [hfold, streamEnd_tokens, streamEnd_content, streamEnd_finish]
    have hitems : logprobItems (.obj [("logprobs".toList,
        .obj [("content".toList, .arr (streamTokens loads ls))])]) = streamTokens loads ls := rfl
    by_cases htok : TokensFit lib (streamTokens loads ls)
    · obtain ⟨tokens, ht⟩ := tokenLogprobs_of_fit (hitems ▸ htok)
      rw [ht]
      refine (contained_settle endpoint tier operation _).trans ?_
      simp only [Json.str.injEq, exists_eq', true_and]
      exact ⟨fun h => ⟨hfit, htok, h⟩, fun h => h.2.2⟩
    · rw [tokenLogprobs_of_not_fit (hitems ▸ htok)]
      exact iff_of_false (not_contained_pyError _ _) fun h => htok h.2.1
  · obtain ⟨e, he⟩ := readLines_of_not_fit hfit {}
    rw [he]
    exact iff_of_false (not_contained_pyError _ _) fun h => hfit h.1

/-- **Provider errors.** Asked for a tier it serves, a call returns a reply that had a text
or raises the relay's own error, exactly when the answer fits. -/
theorem complete_contained_iff (lib : StdLib) (loads : Str → Loaded)
    (p : OpenAICompatibleProvider) (tier : Tier) (operation : Operation) (answer : Answer) :
    Contained (answer.content loads) (p.complete lib loads tier operation (.answered 200 answer)) ↔
      (p.Serves tier → answer.Fits lib loads operation) := by
  by_cases hserves : p.Serves tier
  · obtain ⟨endpoint, hp, hkey⟩ := hserves
    rw [complete_of_serves hp hkey, imp_iff_right ⟨endpoint, hp, hkey⟩]
    cases answer with
    | body loaded => exact contained_body endpoint tier operation loaded
    | lines ls => exact contained_lines endpoint tier operation ls
  · obtain ⟨msg, h⟩ := complete_of_not_serves lib loads hserves operation (.answered 200 answer)
    rw [h]
    exact iff_of_true (contained_relayError _ _) fun hs => absurd hs hserves

/-- A body whose message is null. -/
def nullMessage : Json := .obj [("choices".toList, .arr [.obj [("message".toList, .null)]])]

/-- Two models, the second without a key. -/
def sampleProvider : OpenAICompatibleProvider where
  small := { model := "small".toList }
  cloud := { model := "large".toList }

/-- A message that is null lets an `AttributeError` out, and so does an event that is. -/
theorem complete_uncontained_null :
    (¬ Contained ((Answer.body (.ok nullMessage)).content jsonLoads)
      (sampleProvider.complete asciiLib jsonLoads .small .solve
        (.answered 200 (.body (.ok nullMessage))))) ∧
    ¬ Contained ((Answer.lines ["data: null".toList]).content jsonLoads)
      (sampleProvider.complete asciiLib jsonLoads .small .solve
        (.answered 200 (.lines ["data: null".toList]))) := by
  have hbody : sampleProvider.complete asciiLib jsonLoads .small .solve
      (.answered 200 (.body (.ok nullMessage))) = .error (pyError "AttributeError".toList) := by rfl
  have hlines : sampleProvider.complete asciiLib jsonLoads .small .solve
      (.answered 200 (.lines ["data: null".toList])) =
        .error (pyError "AttributeError".toList) := by rfl
  rw [hbody, hlines]
  exact ⟨not_contained_pyError _ _, not_contained_pyError _ _⟩

end OpenAICompatibleProvider

end HorizonRelay
