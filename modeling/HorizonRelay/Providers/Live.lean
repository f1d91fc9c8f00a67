import HorizonRelay.Providers.Shapes

/-!
# What is told of a stream while it comes

The reader searches the text it has so far for the marker that ends the reasoning, and cuts
the chunk the marker ends in.  What it tells as it goes is the final split of the whole text
as long as the marker comes within one chunk.

## Main definitions

* `IsMarker` — the markers.
* `Stream.told` — what `on_delta` was given of one kind.
* `LiveAgrees` — what was told is what the text is split into at its end.
* `MarkerWhole` — the marker comes within one chunk.

## Main results

* `live_agrees_iff` — when the two agree.
-/

namespace HorizonRelay

open Py

/-! ## The marker -/

/-- `</ifm|think>`, or `</ifm|think_NAME>`. -/
inductive IsMarker : Str → Prop
  | bare : IsMarker (markerOpening ++ ['>'])
  | named (c : Char) (name : Str) (h : ∀ d ∈ c :: name, isLetter d = true) :
      IsMarker (markerOpening ++ '_' :: c :: name ++ ['>'])

theorem isPrefixOf_append (s t : Str) : s.isPrefixOf (s ++ t) = true :=
  List.isPrefixOf_iff_prefix.mpr (List.prefix_append s t)

/-- A marker at the front of a text is found. -/
theorem markerAt_of_isMarker {m : Str} (h : IsMarker m) (a : Str) :
    markerAt (m ++ a) = some (m, a) := by
  unfold markerAt
  cases h with
  | bare =>
      rw [List.append_assoc, if_pos (isPrefixOf_append _ _), List.drop_left]
      rfl
  | named c name h =>
      have hstop : isLetter '>' = false := by decide
      have htake : (c :: name ++ '>' :: a).takeWhile isLetter = c :: name := by
        rw [List.takeWhile_append_of_pos h, List.takeWhile_cons_of_neg (by simp [hstop]),
          List.append_nil]
      have hdrop : (c :: name ++ '>' :: a).dropWhile isLetter = '>' :: a := by
        rw [List.dropWhile_append_of_pos h, List.dropWhile_cons_of_neg (by simp [hstop])]
      rw [List.append_assoc, List.append_assoc, if_pos (isPrefixOf_append _ _), List.drop_left]
      simp only [List.cons_append, List.nil_append] at htake hdrop ⊢
      rw [htake, hdrop]
      simp

/-- What is found at the front of a text is a marker. -/
theorem markerAt_eq_some {s m a : Str} (h : markerAt s = some (m, a)) :
    IsMarker m ∧ s = m ++ a := by
  unfold markerAt at h
  split at h
  · rename_i hpre
    obtain ⟨t, rfl⟩ := List.isPrefixOf_iff_prefix.mp hpre
    rw [List.drop_left] at h
    split at h
    · cases h
      exact ⟨.bare, by simp⟩
    · rename_i rest
      split at h
      · rename_i c name after htake hdrop
        cases h
        have hsplit := List.takeWhile_append_dropWhile (p := isLetter) (l := rest)
        rw [htake, hdrop] at hsplit
        refine ⟨.named c name fun d hd => ?_, ?_⟩
        · rw [← htake] at hd
          exact List.mem_takeWhile_imp hd
        · rw [← hsplit]
          simp
      · cases h
    · cases h
  · cases h

/-- A marker has its only `<` in front. -/
theorem IsMarker.cons {m : Str} (h : IsMarker m) : ∃ m', m = '<' :: m' ∧ '<' ∉ m' := by
  cases h with
  | bare => exact ⟨_, rfl, by decide⟩
  | named c name h =>
      refine ⟨"/ifm|think".toList ++ '_' :: c :: name ++ ['>'], rfl, ?_⟩
      have hname : '<' ∉ c :: name := by
        intro hmem
        have hletter := h _ hmem
        revert hletter
        decide
      simp only [List.mem_append, List.mem_cons, not_or] at hname ⊢
      exact ⟨⟨by decide, by decide, hname⟩, by decide, by simp⟩

theorem findMarker_eq_some {s b m a : Str} (h : findMarker s = some (b, m, a)) :
    IsMarker m ∧ s = b ++ (m ++ a) := by
  induction s generalizing b with
  | nil => cases h
  | cons c rest ih =>
      unfold findMarker at h
      split at h
      · rename_i marker after hat
        cases h
        exact markerAt_eq_some hat
      · obtain ⟨⟨b', m', a'⟩, hf, h⟩ := Option.map_eq_some_iff.mp h
        cases h
        obtain ⟨hm, hrest⟩ := ih hf
        exact ⟨hm, congrArg (c :: ·) hrest⟩

/-- A text with a marker in it has a first one. -/
theorem findMarker_ne_none {m : Str} (hm : IsMarker m) (b a : Str) :
    findMarker (b ++ (m ++ a)) ≠ none := by
  induction b with
  | nil =>
      have hat := markerAt_of_isMarker hm a
      obtain ⟨m', rfl, -⟩ := hm.cons
      rw [List.nil_append, List.cons_append, findMarker, ← List.cons_append, hat]
      exact Option.some_ne_none _
  | cons c b ih =>
      rw [List.cons_append, findMarker]
      split
      · exact Option.some_ne_none _
      · rwa [ne_eq, Option.map_eq_none_iff]

/-- The first marker stays the first when more text comes. -/
theorem findMarker_append {s b m a : Str} (h : findMarker s = some (b, m, a)) (t : Str) :
    findMarker (s ++ t) = some (b, m, a ++ t) := by
  induction s generalizing b with
  | nil => cases h
  | cons c rest ih =>
      unfold findMarker at h
      rw [List.cons_append, findMarker]
      split at h
      · rename_i marker after hat
        cases h
        obtain ⟨hm, hs⟩ := markerAt_eq_some hat
        rw [← List.cons_append, hs, List.append_assoc, markerAt_of_isMarker hm]
      · rename_i hat
        obtain ⟨⟨b', m', a'⟩, hf, h⟩ := Option.map_eq_some_iff.mp h
        cases h
        -- a marker that begins here would have the next one's `<` in it
        have hnone : markerAt (c :: (rest ++ t)) = none := by
          by_contra hsome
          obtain ⟨⟨m₁, a₁⟩, h₁⟩ := Option.ne_none_iff_exists'.mp hsome
          obtain ⟨hm₁, hs₁⟩ := markerAt_eq_some h₁
          obtain ⟨m₁', rfl, hno⟩ := hm₁.cons
          rw [List.cons_append, List.cons.injEq] at hs₁
          obtain ⟨rfl, hs₁⟩ := hs₁
          rcases List.append_eq_append_iff.mp hs₁ with ⟨u, rfl, -⟩ | ⟨u, rfl, -⟩
          · obtain ⟨hm, hrest⟩ := findMarker_eq_some hf
            obtain ⟨m'', rfl, -⟩ := hm.cons
            rw [hrest] at hno
            simp at hno
          · rw [← List.cons_append, markerAt_of_isMarker hm₁] at hat
            cases hat
        rw [hnone, ih hf]
        rfl

/-! ## What is told -/

/-- The texts of one kind that `on_delta` was given, one after the other. -/
def Stream.told (s : Stream) (kind : DeltaKind) : Str :=
  ((s.deltas.filter fun d => d.2 = kind).map Prod.fst).flatten

/-- The chunk that holds the marker that follows `before`. -/
def MarkerWhole (chunks : List Str) (before marker : Str) : Prop :=
  ∃ pre head tail post, chunks = pre ++ (head ++ (marker ++ tail)) :: post ∧
    pre.flatten ++ head = before

/-- What was told is what the text is split into: the output is what follows the marker, the
thinking what stands before it but for white space at its end, and both are, stripped, those
of the reply. -/
structure LiveAgrees (s : Stream) (before after : Str) : Prop where
  output : s.told .output = after
  thinking : ∃ w, (∀ c ∈ w, isSpace c = true) ∧ s.told .thinking ++ w = before
  reply : splitThinking s.content (.str s.reasoning) =
    .ok ((s.told .thinking).strip, (s.told .output).strip)

/-- The marker comes within one of the chunks, or within one more. -/
theorem markerWhole_concat {chunks : List Str} {b m t : Str} :
    MarkerWhole (chunks ++ [t]) b m ↔ MarkerWhole chunks b m ∨
      ∃ head tail, t = head ++ (m ++ tail) ∧ chunks.flatten ++ head = b := by
  constructor
  · rintro ⟨pre, head, tail, post, h, hb⟩
    rcases List.eq_nil_or_concat post with rfl | ⟨post, t', rfl⟩
    · obtain ⟨rfl, ht⟩ := List.append_inj' h rfl
      rw [List.cons.injEq] at ht
      exact .inr ⟨head, tail, ht.1, hb⟩
    · rw [List.concat_eq_append, ← List.cons_append, ← List.append_assoc] at h
      obtain ⟨rfl, -⟩ := List.append_inj' h rfl
      exact .inl ⟨pre, head, tail, post, rfl, hb⟩
  · rintro (⟨pre, head, tail, post, rfl, hb⟩ | ⟨head, tail, rfl, hb⟩)
    · exact ⟨pre, head, tail, post ++ [t], by simp, hb⟩
    · exact ⟨chunks, head, tail, [], rfl, hb⟩

/-- Chunks without a marker hold none whole. -/
theorem not_markerWhole {chunks : List Str} {b m : Str} (hm : IsMarker m)
    (h : findMarker chunks.flatten = none) : ¬ MarkerWhole chunks b m := by
  rintro ⟨pre, head, tail, post, rfl, -⟩
  refine findMarker_ne_none hm (pre.flatten ++ head) (tail ++ post.flatten) ?_
  simpa using h

namespace Stream

theorem told_onDelta (s : Stream) (text : Str) (kind kind' : DeltaKind) :
    (s.onDelta text kind).told kind' = s.told kind' ++ if kind = kind' then text else [] := by
  unfold told onDelta
  rw [List.filter_append, List.map_append, List.flatten_append]
  by_cases h : kind = kind'
  · simp [h]
  · simp [h]

theorem told_onDeltaIf (s : Stream) (said : Bool) (text : Str) (kind kind' : DeltaKind) :
    (s.onDeltaIf said text kind).told kind' =
      s.told kind' ++ if said = true ∧ kind = kind' then text else [] := by
  unfold onDeltaIf
  cases said with
  | true => simpa using s.told_onDelta text kind kind'
  | false => simp

@[simp] theorem thinking_onDeltaIf (s : Stream) (said : Bool) (text : Str) (kind : DeltaKind) :
    (s.onDeltaIf said text kind).thinking = s.thinking := by
  unfold onDeltaIf
  split <;> rfl

/-- What has been told once these chunks have come. -/
structure Tells (s : Stream) (chunks : List Str) : Prop where
  content : s.content = chunks.flatten
  reasoning : s.reasoning = []
  /-- Before the marker all is thinking. -/
  before : findMarker s.content = none →
    s.thinking = true ∧ s.told .thinking = s.content ∧ s.told .output = []
  /-- After it the rest is output, and the thinking ends at the marker or in it. -/
  after : ∀ b m a, findMarker s.content = some (b, m, a) →
    s.thinking = false ∧ s.told .output = a ∧
      (MarkerWhole chunks b m ∧ (∃ w, (∀ c ∈ w, isSpace c = true) ∧ s.told .thinking ++ w = b) ∨
        ¬ MarkerWhole chunks b m ∧ b.length < (s.told .thinking).length)

theorem tells_nil : Tells {} [] where
  content := rfl
  reasoning := rfl
  before := fun _ => ⟨rfl, rfl, rfl⟩
  after := fun _ _ _ h => nomatch h

/-- A chunk that comes after the marker is output. -/
theorem addContent_output {s : Stream} (h : s.thinking = false) (text : Str) :
    s.addContent text = { s with content := s.content ++ text }.onDelta text .output := by
  unfold addContent
  simp [h]

/-- A chunk without a marker before one has come is thinking. -/
theorem addContent_thinking {s : Stream} (h : s.thinking = true) {text : Str}
    (hf : findMarker (s.content ++ text) = none) :
    s.addContent text = { s with content := s.content ++ text }.onDelta text .thinking := by
  unfold addContent
  simp [h, hf]

/-- The chunk in which the marker ends is told in two parts. -/
theorem told_addContent_marker {s : Stream} (h : s.thinking = true) {text b m a : Str}
    (hf : findMarker (s.content ++ text) = some (b, m, a)) :
    (s.addContent text).thinking = false ∧
      (s.addContent text).told .output = s.told .output ++ a ∧
      ∃ w, (∀ c ∈ w, isSpace c = true) ∧
        w.length ≤ (text.take (text.length - a.length - m.length)).length ∧
        (s.addContent text).told .thinking ++ w =
          s.told .thinking ++ text.take (text.length - a.length - m.length) := by
  unfold addContent
  simp only [h, hf, if_true]
  generalize hhead : text.take (text.length - a.length - m.length) = head
  refine ⟨by simp, ?_, ?_⟩
  · rw [told_onDeltaIf, told_onDeltaIf, if_neg (by simp)]
    cases a <;> simp [told]
  · rw [told_onDeltaIf, told_onDeltaIf, if_neg (by simp : ¬ (_ ∧ DeltaKind.output = .thinking))]
    by_cases hblank : ∀ c ∈ head, isSpace c = true
    · -- white space before the marker is dropped
      refine ⟨head, hblank, le_rfl, ?_⟩
      rw [if_neg (by simp [Str.strip_eq_nil_iff.mpr hblank])]
      simp [told]
    · refine ⟨[], by simp, by simp, ?_⟩
      rw [if_pos (by simpa [Str.strip_eq_nil_iff] using hblank)]
      simp [told]

/-- One more chunk. -/
theorem Tells.addContent {s : Stream} {chunks : List Str} (h : s.Tells chunks) (text : Str) :
    (s.addContent text).Tells (chunks ++ [text]) := by
  obtain ⟨_, _, hframe⟩ := s.addContent_frame text
  have hcontent : (s.addContent text).content = s.content ++ text := by rw [hframe]
  have hchunks : (chunks ++ [text]).flatten = s.content ++ text := by
    rw [List.flatten_append, List.flatten_singleton, ← h.content]
  have hreasoning : (s.addContent text).reasoning = [] := by
    rw [hframe]
    exact h.reasoning
  refine ⟨hcontent.trans hchunks.symm, hreasoning, fun hf => ?_, fun b m a hf => ?_⟩
  · -- no marker yet
    rw [hcontent] at hf ⊢
    have hnone : findMarker s.content = none := by
      by_contra hsome
      obtain ⟨⟨b, m, a⟩, hs⟩ := Option.ne_none_iff_exists'.mp hsome
      rw [findMarker_append hs text] at hf
      cases hf
    obtain ⟨hthinking, hin, hout⟩ := h.before hnone
    rw [addContent_thinking hthinking hf, told_onDelta, told_onDelta]
    refine ⟨hthinking, ?_, ?_⟩
    · rw [if_pos rfl]
      exact congrArg (· ++ text) hin
    · rw [if_neg (by decide), List.append_nil]
      exact hout
  · rw [hcontent] at hf
    obtain ⟨hm, hsplit⟩ := findMarker_eq_some hf
    cases hs : findMarker s.content with
    | none =>
        obtain ⟨hthinking, hin, hout⟩ := h.before hs
        obtain ⟨hdone, hout', w, hw, hlen, hin'⟩ := told_addContent_marker hthinking hf
        rw [hin] at hin'
        rw [hout, List.nil_append] at hout'
        refine ⟨hdone, hout', ?_⟩
        have hno : ¬ MarkerWhole chunks b m := not_markerWhole hm (h.content ▸ hs)
        rw [markerWhole_concat, or_iff_right hno, ← h.content]
        rcases List.append_eq_append_iff.mp hsplit with ⟨head, rfl, rfl⟩ | ⟨c, hc, hma⟩
        · -- the marker begins in this chunk
          have htake : (head ++ (m ++ a)).take
              ((head ++ (m ++ a)).length - a.length - m.length) = head := by
            rw [List.take_left']
            simp only [List.length_append]
            omega
          rw [htake] at hin'
          exact .inl ⟨⟨head, a, rfl, rfl⟩, w, hw, hin'⟩
        · cases c with
          | nil =>
              rw [List.append_nil] at hc
              rw [List.nil_append] at hma
              have htake : text.take (text.length - a.length - m.length) = [] := by
                rw [← hma, List.length_append]
                simp
              rw [htake, List.append_nil] at hin'
              exact .inl ⟨⟨[], a, hma.symm, by rw [List.append_nil, hc]⟩, w, hw, hc ▸ hin'⟩
          | cons d c =>
              -- it began before: its beginning has been told as thinking
              have hlengths := congrArg List.length hma
              have hcontents := congrArg List.length hc
              simp only [List.length_append, List.length_cons] at hlengths hcontents
              have hzero : text.length - a.length - m.length = 0 := by omega
              rw [hzero, List.take_zero, List.length_nil] at hlen
              obtain rfl : w = [] := List.eq_nil_of_length_eq_zero (by omega)
              rw [hzero, List.take_zero, List.append_nil, List.append_nil] at hin'
              refine .inr ⟨?_, ?_⟩
              · rintro ⟨head, tail, -, hb⟩
                have := congrArg List.length hb
                rw [List.length_append] at this
                omega
              · rw [hin']
                omega
    | some found =>
        obtain ⟨b', m', a'⟩ := found
        rw [findMarker_append hs text] at hf
        cases hf
        obtain ⟨hthinking, hout, hcase⟩ := h.after b m a' hs
        have hold : MarkerWhole (chunks ++ [text]) b m ↔ MarkerWhole chunks b m := by
          rw [markerWhole_concat, or_iff_left]
          rintro ⟨head, tail, -, hb⟩
          obtain ⟨m', rfl, -⟩ := hm.cons
          have hlength := congrArg List.length (findMarker_eq_some hs).2
          have hlength' := congrArg List.length hb
          rw [← h.content] at hlength'
          simp only [List.length_append, List.length_cons] at hlength hlength'
          omega
        rw [addContent_output hthinking, told_onDelta, told_onDelta, hold, if_pos rfl,
          if_neg (by decide), List.append_nil]
        exact ⟨hthinking, congrArg (· ++ text) hout, hcase⟩

theorem Tells.write {s : Stream} {chunks : List Str} (h : s.Tells chunks) (v : Json) :
    (s.write v).Tells (chunks ++ [textOf v]) := by
  have hnone : s.Tells (chunks ++ [[]]) := by
    refine ⟨by simpa using h.content, h.reasoning, h.before, fun b m a hf => ?_⟩
    obtain ⟨hthinking, hout, hcase⟩ := h.after b m a hf
    have hold : MarkerWhole (chunks ++ [[]]) b m ↔ MarkerWhole chunks b m := by
      rw [markerWhole_concat, or_iff_left]
      rintro ⟨head, tail, hnil, -⟩
      obtain ⟨m', rfl, -⟩ := (findMarker_eq_some hf).1.cons
      simp at hnil
    rw [hold]
    exact ⟨hthinking, hout, hcase⟩
  cases v with
  | str text =>
      cases text with
      | nil => exact hnone
      | cons c text => exact h.addContent (c :: text)
  | _ => exact hnone

/-- What is told does not depend on the tokens, the usage and why the stream ends. -/
theorem Tells.congr {s t : Stream} {chunks : List Str} (h : s.Tells chunks)
    (hcontent : t.content = s.content) (hreasoning : t.reasoning = s.reasoning)
    (hthinking : t.thinking = s.thinking) (hdeltas : t.deltas = s.deltas) : t.Tells chunks := by
  have htold : t.told = s.told := by
    funext kind
    rw [told, hdeltas]
    rfl
  refine ⟨hcontent.trans h.content, hreasoning.trans h.reasoning, ?_, ?_⟩
  · rw [hcontent, hthinking, htold]
    exact h.before
  · rw [hcontent, hthinking, htold]
    exact h.after

end Stream

/-- The reasoning a choice brings in a field of its own. -/
def choiceReasoning (c : Json) : Str :=
  textOf ((c.field "delta".toList).field "reasoning_content".toList)

/-- The chunks of text a stream brings. -/
def textChunks (loads : Str → Loaded) (lines : List Str) : List Str :=
  (choicesOf loads lines).map choiceText

namespace Stream

theorem reason_of_none (s : Stream) {v : Json} (h : textOf v = []) : s.reason v = s := by
  cases v with
  | str text =>
      cases text with
      | nil => rfl
      | cons c text => cases h
  | _ => rfl

/-- One more choice. -/
theorem Tells.add {s : Stream} {chunks : List Str} (h : s.Tells chunks) {c : Json}
    (hc : choiceReasoning c = []) : (s.add c).Tells (chunks ++ [choiceText c]) := by
  unfold Stream.add
  dsimp only
  rw [reason_of_none _ hc]
  have hmid : Tells { s with finish := (c.field "finish_reason".toList).orElse s.finish
                             tokens := s.tokens ++ logprobItems c } chunks :=
    h.congr rfl rfl rfl rfl
  exact hmid.write _

theorem Tells.foldl_add {s : Stream} {chunks : List Str} (h : s.Tells chunks) {cs : List Json}
    (hcs : ∀ c ∈ cs, choiceReasoning c = []) :
    (cs.foldl Stream.add s).Tells (chunks ++ cs.map choiceText) := by
  induction cs generalizing s chunks with
  | nil => simpa using h
  | cons c cs ih =>
      rw [List.forall_mem_cons] at hcs
      have hnext := ih (h.add hcs.1) hcs.2
      rwa [List.append_assoc, List.singleton_append] at hnext

theorem Tells.foldl_addEvent {s : Stream} {chunks : List Str} (h : s.Tells chunks)
    {events : List Json}
    (hcs : ∀ c ∈ events.flatMap fun v => (v.field "choices".toList).items, choiceReasoning c = []) :
    (events.foldl Stream.addEvent s).Tells
      (chunks ++ (events.flatMap fun v => (v.field "choices".toList).items).map choiceText) := by
  induction events generalizing s chunks with
  | nil => simpa using h
  | cons v events ih =>
      rw [List.flatMap_cons, List.forall_mem_append] at hcs
      have husage : (s.setUsage (v.field "usage".toList)).Tells chunks := by
        obtain ⟨_, hu⟩ := s.setUsage_frame (v.field "usage".toList)
        rw [hu]
        exact h.congr rfl rfl rfl rfl
      have hnext := ih (husage.foldl_add hcs.1) hcs.2
      rwa [List.append_assoc, ← List.map_append] at hnext

end Stream

/-- What a stream without a field for its reasoning has told at its end. -/
theorem streamEnd_tells {loads : Str → Loaded} {lines : List Str}
    (h : ∀ c ∈ choicesOf loads lines, choiceReasoning c = []) :
    (streamEnd loads lines).Tells (textChunks loads lines) :=
  Stream.tells_nil.foldl_addEvent h

/-- A stream that is read to its end is one that fits. -/
theorem streamEnd_of_isOk {loads : Str → Loaded} {lines : List Str}
    (h : (readLines loads lines {}).isOk = true) :
    readLines loads lines {} = .ok (streamEnd loads lines) := by
  by_cases hfit : LinesFit loads lines
  · exact readLines_of_fit hfit {}
  · obtain ⟨e, he⟩ := readLines_of_not_fit hfit {}
    rw [he] at h
    cases h

/-! ## The final split -/

theorem upTo_eq_some {stop s b a : Str} (h : upTo stop s = some (b, a)) :
    s = b ++ (stop ++ a) := by
  induction s generalizing b with
  | nil =>
      unfold upTo at h
      split at h
      · rename_i hstop
        cases h
        rw [List.isEmpty_iff.mp hstop]
        rfl
      · cases h
  | cons c rest ih =>
      unfold upTo at h
      split at h
      · rename_i hpre
        cases h
        obtain ⟨t, ht⟩ := List.isPrefixOf_iff_prefix.mp hpre
        rw [← ht, List.drop_left]
        rfl
      · obtain ⟨⟨b', a'⟩, hup, h⟩ := Option.map_eq_some_iff.mp h
        cases h
        exact congrArg (c :: ·) (ih hup)

/-- A `<` is no white space. -/
theorem count_angle_strip (s : Str) : List.count '<' s.strip = List.count '<' s :=
  Str.count_strip (by decide) s

theorem count_angle_marker {m : Str} (h : IsMarker m) : List.count '<' m = 1 := by
  obtain ⟨m', rfl, hno⟩ := h.cons
  rw [List.count_cons_self, List.count_eq_zero.mpr hno]

/-- A block of reasoning at the front of a text takes two `<` away. -/
theorem thinkBlock_count {s block rest : Str} (h : thinkBlock s = some (block, rest)) :
    List.count '<' s = List.count '<' block + List.count '<' rest + 2 := by
  unfold thinkBlock at h
  dsimp only at h
  split at h
  · rename_i hpre
    obtain ⟨t, ht⟩ := List.isPrefixOf_iff_prefix.mp hpre
    rw [← ht, List.drop_left] at h
    obtain ⟨⟨block', rest'⟩, hup, h⟩ := Option.map_eq_some_iff.mp h
    cases h
    have hbody : List.count '<' t = List.count '<' block' + (1 + List.count '<' rest') := by
      rw [upTo_eq_some hup, List.count_append, List.count_append]
      rfl
    have hs : List.count '<' s = 1 + List.count '<' t := by
      rw [← Str.count_lstrip (by decide) s, ← ht, List.count_append]
      rfl
    dsimp only
    rw [Str.count_lstrip (by decide) rest']
    omega
  · cases h

/-- Of a text with a block in front, the reply holds fewer `<` than were told. -/
theorem split_count_of_block {s block rest : Str} (h : thinkBlock s = some (block, rest)) :
    List.count '<' (thinkingText s []) + List.count '<' (answerText s) + 2 ≤ List.count '<' s := by
  rw [thinkBlock_count h]
  unfold thinkingText answerText
  simp only [h, Option.map_some, Option.getD_some, Option.elim_some, count_angle_strip]
  cases hf : findMarker rest with
  | none =>
      simp only [Option.elim_none, Option.map_none, Option.getD_none, count_angle_strip]
      simp
  | some found =>
      obtain ⟨b, m, a⟩ := found
      obtain ⟨hm, hrest⟩ := findMarker_eq_some hf
      simp only [Option.elim_some, Option.map_some, Option.getD_some, count_angle_strip]
      rw [hrest]
      simp [List.count_append, count_angle_strip]
      omega

/-- A text without such a block is split at its marker. -/
theorem split_of_marker {s b m a : Str} (hblock : thinkBlock s = none)
    (hf : findMarker s = some (b, m, a)) :
    thinkingText s [] = b.strip ∧ answerText s = a.strip := by
  unfold thinkingText answerText
  simp only [hblock, Option.map_none, Option.getD_none, Option.elim_none, hf, Option.elim_some,
    Option.map_some, Option.getD_some, List.nil_append, Str.strip_strip]
  exact ⟨Str.strip_cons_space (by decide) b, trivial⟩

/-- **Live labels.** A stream whose text holds a marker, and that has no field for its
reasoning, tells as output and as thinking what the final split makes of the text, exactly
when the marker comes within one chunk and no block of reasoning stands in front. -/
theorem live_agrees_iff {loads : Str → Loaded} {lines : List Str} {s : Stream}
    {before marker after : Str} (hread : readLines loads lines {} = .ok s)
    (hreason : ∀ c ∈ choicesOf loads lines, choiceReasoning c = [])
    (hmarker : findMarker s.content = some (before, marker, after)) :
    LiveAgrees s before after ↔
      MarkerWhole (textChunks loads lines) before marker ∧ thinkBlock s.content = none := by
  obtain rfl : streamEnd loads lines = s := by
    have hend := streamEnd_of_isOk (congrArg Except.isOk hread)
    exact Except.ok.inj (hend.symm.trans hread)
  have htells := streamEnd_tells hreason
  obtain ⟨-, hout, hcase⟩ := htells.after before marker after hmarker
  constructor
  · rintro ⟨-, ⟨w, hw, hbefore⟩, hreply⟩
    have hlen := congrArg List.length hbefore
    rw [List.length_append] at hlen
    refine ⟨?_, ?_⟩
    · rcases hcase with ⟨hwhole, -⟩ | ⟨-, hlt⟩
      · exact hwhole
      · omega
    · -- otherwise the reply holds fewer `<` than were told
      by_contra hblock
      obtain ⟨⟨block, rest⟩, hsome⟩ := Option.ne_none_iff_exists'.mp hblock
      have hcount := split_count_of_block hsome
      obtain ⟨hm, hcontent⟩ := findMarker_eq_some hmarker
      have hw' : List.count '<' w = 0 := by
        rw [List.count_eq_zero]
        intro hmem
        have := hw _ hmem
        revert this
        decide
      rw [htells.reasoning, splitThinking_str, Except.ok.injEq, Prod.mk.injEq] at hreply
      rw [hreply.1, hreply.2, count_angle_strip, count_angle_strip, hout, hcontent, ← hbefore,
        List.count_append, List.count_append, List.count_append, count_angle_marker hm, hw']
        at hcount
      omega
  · rintro ⟨hwhole, hblock⟩
    have hw : ∃ w, (∀ c ∈ w, isSpace c = true) ∧
        (streamEnd loads lines).told .thinking ++ w = before := by
      rcases hcase with ⟨-, hw⟩ | ⟨hno, -⟩
      · exact hw
      · exact absurd hwhole hno
    refine ⟨hout, hw, ?_⟩
    obtain ⟨w, hspace, hbefore⟩ := hw
    obtain ⟨hthinking, hanswer⟩ := split_of_marker hblock hmarker
    rw [htells.reasoning, splitThinking_str, hthinking, hanswer, hout, ← hbefore,
      Str.strip_append_space hspace]

/-- The line that brings a chunk of text, when nothing in that has to be escaped. -/
def chunkLine (text : Str) : Str :=
  "data: \x7b\"choices\": [\x7b\"delta\": \x7b\"content\": \"".toList ++ text ++
    "\"\x7d\x7d]\x7d".toList

/-- A stream whose second chunk ends the marker that the first began. -/
def cutLines : List Str := [chunkLine "a</ifm|".toList, chunkLine "think>b".toList]

/-- A stream whose marker comes whole. -/
def wholeLines : List Str := [chunkLine "a ".toList, chunkLine " </ifm|think_faster>b".toList]

/-- Nothing of the marker is told when it comes whole. -/
theorem live_agrees_whole : ∃ s, readLines jsonLoads wholeLines {} = .ok s ∧
    LiveAgrees s "a  ".toList "b".toList := by
  have hread : readLines jsonLoads wholeLines {} = .ok (streamEnd jsonLoads wholeLines) :=
    streamEnd_of_isOk (by decide +kernel)
  have hmarker : findMarker (streamEnd jsonLoads wholeLines).content =
      some ("a  ".toList, "</ifm|think_faster>".toList, "b".toList) := by decide +kernel
  refine ⟨_, hread, (live_agrees_iff hread (by decide +kernel) hmarker).mpr ⟨?_, ?_⟩⟩
  · exact ⟨["a ".toList], " ".toList, "b".toList, [], by decide +kernel, rfl⟩
  · have hnone : (thinkBlock (streamEnd jsonLoads wholeLines).content).isNone = true := by
      decide +kernel
    exact Option.isNone_iff_eq_none.mp hnone

/-- The marker that two chunks share has been told in part when it is found. -/
theorem live_disagrees_cut : ∃ s, readLines jsonLoads cutLines {} = .ok s ∧
    (∀ c ∈ choicesOf jsonLoads cutLines, choiceReasoning c = []) ∧
    findMarker s.content = some ("a".toList, "</ifm|think>".toList, "b".toList) ∧
    ¬ LiveAgrees s "a".toList "b".toList := by
  refine ⟨streamEnd jsonLoads cutLines, streamEnd_of_isOk (by decide +kernel),
    by decide +kernel, by decide +kernel, ?_⟩
  rintro ⟨-, ⟨w, -, hw⟩, -⟩
  have htold : (streamEnd jsonLoads cutLines).told .thinking = "a</ifm|".toList := by
    decide +kernel
  have hlen := congrArg List.length hw
  rw [htold, List.length_append] at hlen
  have h7 : "a</ifm|".toList.length = 7 := rfl
  have h1 : "a".toList.length = 1 := rfl
  omega

end HorizonRelay
