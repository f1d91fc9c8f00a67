import HorizonRelay.Policy.Salvage

/-!
# What is saved of nearly valid JSON

A solver's reply with bare quotes in its last field is no JSON.  Five patterns find its
fields, and the reply is read as the real reader would read it with the quotes escaped, as
long as the patterns know how the answer and the confidence are spelled.

## Main definitions

* `SolverReply` — a reply in the solver's field order, as it is spelled.
* `SalvageAgrees` — both ways to read it record the same.
* `SolverReply.Salvageable` — the spellings the patterns know.

## Main results

* `SolverReply.loads_repaired` — with its quotes escaped the reply is JSON.
* `search_next` — what a search does at one member.
* `salvage_agrees_iff` — the two ways agree on these spellings and on no others.
-/

namespace HorizonRelay

open Py Py.JsonText

/-! ## Replies -/

/-- The fields a solver is asked for. -/
inductive SolveField : Type
  | answer
  | confidence
  | taskType
  | difficulty
  | needsEscalation
  | reason
  deriving DecidableEq

namespace SolveField

def key : SolveField → Str
  | answer => "answer".toList
  | confidence => "confidence".toList
  | taskType => "task_type".toList
  | difficulty => "difficulty".toList
  | needsEscalation => "needs_escalation".toList
  | reason => "reason".toList

theorem wordKey (f : SolveField) : WordKey f.key := by
  cases f <;> exact ⟨by decide, fun c hc => List.all_eq_true.mp (by decide) c hc⟩

@[simp] theorem key_inj {f g : SolveField} : f.key = g.key ↔ f = g := by
  cases f <;> cases g <;> decide

/-- The key as it is spelled. -/
def keyText (f : SolveField) : List StrChar :=
  plainText f.key fun c hc => by
    have hall : f.key.all (fun c => decide (¬ c < ' ' ∧ c ≠ '"' ∧ c ≠ '\\')) = true := by
      cases f <;> decide
    exact of_decide_eq_true (List.all_eq_true.mp hall c hc)

@[simp] theorem bodyText_keyText (f : SolveField) : bodyText f.keyText = f.key :=
  bodyText_plainText _ _

@[simp] theorem bodyValue_keyText (f : SolveField) : bodyValue f.keyText = f.key :=
  bodyValue_plainText _ _

end SolveField

/-- A solver's reply in the order the prompt asks for, as it is spelled.  In the reason,
`none` is a quote that is not escaped. -/
structure SolverReply : Type where
  answer : List StrChar
  confidence : Number
  taskType : List StrChar
  difficulty : List StrChar
  needsEscalation : Bool
  reason : List (Option StrChar)
  gaps : SolveField → Gaps
  lead : Str
  trail : Str
  lead_blank : Blank lead
  trail_blank : Blank trail
  /-- The confidence is a number in `[0, 1]`. -/
  confidence_mem : 0 ≤ confidence.parts.number ∧ confidence.parts.number ≤ 1

/-- The word for a truth value. -/
def boolText (b : Bool) : Str := if b then "true".toList else "false".toList

/-- A quote that is escaped. -/
def escapedQuote : StrChar := .letter '"' '"' rfl

namespace SolverReply

/-- The members before the reason, and what follows them. -/
def before (r : SolverReply) (t : Str) : Str :=
  (r.gaps .answer).next SolveField.answer.keyText (quoted r.answer)
    ((r.gaps .confidence).next SolveField.confidence.keyText r.confidence.text
      ((r.gaps .taskType).next SolveField.taskType.keyText (quoted r.taskType)
        ((r.gaps .difficulty).next SolveField.difficulty.keyText (quoted r.difficulty)
          ((r.gaps .needsEscalation).next SolveField.needsEscalation.keyText
            (boolText r.needsEscalation) t))))

/-- The reply with this text as the reason. -/
def text (r : SolverReply) (reason : Str) : Str :=
  r.lead ++ ('{' ::
    (r.before ((r.gaps .reason).member SolveField.reason.keyText reason) ++ ['}']) ++ r.trail)

/-- The reason's text as it was written. -/
def rawReason (r : SolverReply) : Str :=
  '"' :: (r.reason.map fun c => (c.map StrChar.text).getD ['"']).flatten ++ ['"']

/-- The reply as it was written. -/
def malformed (r : SolverReply) : Str := r.text r.rawReason

/-- The reply with the reason's quotes escaped. -/
def repaired (r : SolverReply) : Str := r.text (quoted (r.reason.map (·.getD escapedQuote)))

end SolverReply

/-! ## Reading the repaired reply -/

theorem spells_boolText (b : Bool) : Spells (boolText b) (.value (.bool b)) := by
  cases b <;> exact .word (by simp [words, boolText])

namespace SolverReply

/-- The object the repaired reply spells. -/
def fields (r : SolverReply) : List (Str × Json) :=
  [(SolveField.answer.key, .str (bodyValue r.answer)),
    (SolveField.confidence.key, r.confidence.parts.json),
    (SolveField.taskType.key, .str (bodyValue r.taskType)),
    (SolveField.difficulty.key, .str (bodyValue r.difficulty)),
    (SolveField.needsEscalation.key, .bool r.needsEscalation),
    (SolveField.reason.key, .str (bodyValue (r.reason.map (·.getD escapedQuote))))]

/-- The repaired reply is JSON. -/
theorem loads_repaired (r : SolverReply) : loads r.repaired = some (.obj r.fields) := by
  have hlists : Lists (r.before ((r.gaps .reason).member SolveField.reason.keyText
      (quoted (r.reason.map (·.getD escapedQuote))))) r.fields := by
    simp only [fields, ← SolveField.bodyValue_keyText]
    exact lists_next _ _ (.string _) <| lists_next _ _ (.number _) <| lists_next _ _ (.string _) <|
      lists_next _ _ (.string _) <| lists_next _ _ (spells_boolText _) <|
        lists_member _ _ (.string _)
  have hkeys : (r.fields.map Prod.fst).Nodup := by
    show [SolveField.answer.key, SolveField.confidence.key, SolveField.taskType.key,
      SolveField.difficulty.key, SolveField.needsEscalation.key, SolveField.reason.key].Nodup
    decide
  have hspells := spells_of_lists hlists
  rw [Dict.entries_ofList hkeys] at hspells
  exact loads_of_spells r.lead_blank hspells r.trail_blank

end SolverReply

/-- What is recorded of an answer and used further on. -/
def Assessment.recorded (a : Assessment) : Str × ℚ × Bool :=
  (a.answer, a.confidence, a.needsEscalation)

theorem readAssessment_repaired (lib : StdLib) (r : SolverReply) (stats : Option TokenStats) :
    (readAssessment lib (.obj r.fields) stats).map Assessment.recorded =
      .ok (bodyValue r.answer, roundDouble r.confidence.parts.number, r.needsEscalation) := by
  have hanswer : r.fields.lookup "answer".toList = some (.str (bodyValue r.answer)) := rfl
  have hconf : r.fields.lookup "confidence".toList = some r.confidence.parts.json := rfl
  have hneeds : r.fields.lookup "needs_escalation".toList = some (.bool r.needsEscalation) := rfl
  have hsalvage : (Json.obj r.fields).str?.bind salvage = none := rfl
  simp only [readAssessment, hsalvage, Option.none_or, Json.obj?, Option.bind_some, hanswer, hconf,
    hneeds, Option.filter_some, isScalar, if_true, Option.getD_some,
    readNumber_json lib (1 / 2) _ r.confidence_mem]
  rfl

/-! ## Searching the malformed reply -/

/-- The text of a value that a search passes over, and that begins with no white space. -/
structure ValueText (v : Str) : Prop where
  passed : PassedOver v
  head : ∃ c t, v = c :: t ∧ isSpace c = false

theorem valueText_quoted (cs : List StrChar) : ValueText (quoted cs) :=
  ⟨passedOver_quoted cs, '"', _, rfl, by decide⟩

theorem valueText_boolText (b : Bool) : ValueText (boolText b) := by
  cases b
  · exact ⟨passedOver_plain (by decide), 'f', _, rfl, by decide⟩
  · exact ⟨passedOver_plain (by decide), 't', _, rfl, by decide⟩

theorem quote_not_mem_number (k : Number) : '"' ∉ k.text := by
  intro h
  rcases k.mem_text h with hdigit | hmark
  · exact absurd hdigit (by decide)
  · exact absurd hmark (by decide)

theorem valueText_number (k : Number) : ValueText k.text := by
  obtain ⟨c, t, hc, hhead⟩ := k.exists_head
  refine ⟨passedOver_plain (quote_not_mem_number k), c, t, hc, ?_⟩
  rcases hhead with rfl | hdigit
  · decide
  · have hall : "0123456789".toList.all (fun c => !isSpace c) = true := by decide
    simpa using List.all_eq_true.mp hall c (digit_cases hdigit)

section Search
variable {α : Type} (p : Str → Option α)

/-- What is found at a member, or after it. -/
theorem search_next (f : SolveField) (gs : Gaps) (g : SolveField) {v t : Str} (hv : ValueText v) :
    searchText (keyPattern f.key p) (gs.next g.keyText v t) =
      (if g = f then p (v ++ (gs.after ++ ',' :: t)) else none).or
        (searchText (keyPattern f.key p) t) := by
  have hspace : ∀ c ∈ (v ++ (gs.after ++ ',' :: t)).head?, isSpace c = false := by
    obtain ⟨c, u, rfl, hc⟩ := hv.head
    simpa using hc
  have hcolon : pastColon (gs.after ++ ',' :: t) = none :=
    pastColon_blank gs.after_blank (by decide) (by decide)
  have hgap : searchText (keyPattern f.key p) (gs.after ++ ',' :: t) =
      searchText (keyPattern f.key p) t := by
    have hplain : '"' ∉ gs.after ++ [','] := by simp [not_mem_blank gs.after_blank]
    rw [← search_plain hplain t, List.append_assoc]
    rfl
  rw [Gaps.next, search_plain (not_mem_blank gs.before_blank),
    search_member f.wordKey g.wordKey g.bodyText_keyText gs.afterKey_blank gs.afterColon_blank
      hspace,
    hv.passed p f.wordKey hcolon (blank_head gs.after_blank (by decide)), hgap]
  simp only [SolveField.key_inj]

/-- A member with another key is passed over. -/
theorem search_other {f g : SolveField} (h : g ≠ f) (gs : Gaps) {v t : Str} (hv : ValueText v) :
    searchText (keyPattern f.key p) (gs.next g.keyText v t) =
      searchText (keyPattern f.key p) t := by
  rw [search_next p f gs g hv, if_neg h, Option.none_or]

/-- The member that is searched for. -/
theorem search_this {f : SolveField} (gs : Gaps) {v t : Str} (hv : ValueText v) :
    searchText (keyPattern f.key p) (gs.next f.keyText v t) =
      (p (v ++ (gs.after ++ ',' :: t))).or (searchText (keyPattern f.key p) t) := by
  rw [search_next p f gs f hv, if_pos rfl]

end Search

/-- A string, from its opening quote. -/
def stringValue : Str → Option Str
  | '"' :: r => quotedRun r
  | _ => none

/-- A truth value. -/
def boolValue (r : Str) : Option Bool :=
  if "true".toList.isPrefixOf r then some true
  else if "false".toList.isPrefixOf r then some false else none

theorem stringValue_quoted (cs : List StrChar) (r : Str) :
    stringValue (quoted cs ++ r) = some (bodyText cs) := by
  rw [quoted_append]
  exact quotedRun_bodyText cs r

theorem boolValue_boolText (b : Bool) (r : Str) : boolValue (boolText b ++ r) = some b := by
  cases b <;> simp [boolValue, boolText, List.isPrefixOf]

/-- A sign is no number for the pattern; without one it reads up to the exponent. -/
theorem numberRun_number (k : Number) {r : Str} (hr : Ends r) :
    numberRun (k.text ++ r) = if k.neg then none else some k.mantissaText := by
  cases hneg : k.neg with
  | true =>
      rw [Number.text, hneg]
      rfl
  | false =>
      have hne : k.whole ++ k.fraction ≠ [] := by
        rcases k.whole_mem with h | ⟨c, ds, h, -⟩ <;> simp [h]
      have htext : k.text ++ r =
          k.mantissaText ++ ((k.exponent.map Exponent.text).getD [] ++ r) := by
        simp [Number.text, Number.unsigned, hneg]
      rw [htext, mantissaText_eq,
        numberRun_pointed k.whole_all k.fraction_all hne (exponent_head k.exponent hr)]
      rfl

namespace SolverReply

/-- The malformed reply from its reason on. -/
def fromReason (r : SolverReply) : Str :=
  (r.gaps .reason).member SolveField.reason.keyText r.rawReason ++ '}' :: r.trail

/-- The number a search would find in the reason. -/
def numberInReason (r : SolverReply) : Option Str :=
  searchText (keyPattern SolveField.confidence.key numberRun) r.fromReason

theorem malformed_eq (r : SolverReply) :
    r.malformed = (r.lead ++ ['{']) ++ r.before r.fromReason := by
  simp [malformed, text, before, fromReason, Gaps.next, List.append_assoc]

variable {α : Type} (p : Str → Option α)

theorem search_malformed (r : SolverReply) (f : SolveField) :
    searchText (keyPattern f.key p) r.malformed =
      searchText (keyPattern f.key p) (r.before r.fromReason) := by
  have hplain : '"' ∉ r.lead ++ ['{'] := by simp [not_mem_blank r.lead_blank]
  rw [malformed_eq, search_plain hplain]

/-- The pattern for the answer finds the answer's text. -/
theorem search_answer (r : SolverReply) :
    searchText (keyPattern SolveField.answer.key stringValue) r.malformed =
      some (bodyText r.answer) := by
  rw [search_malformed, before, search_this _ _ (valueText_quoted _), stringValue_quoted,
    Option.some_or]

/-- The pattern for the confidence finds its digits, or what stands in the reason. -/
theorem search_confidence (r : SolverReply) :
    searchText (keyPattern SolveField.confidence.key numberRun) r.malformed =
      if r.confidence.neg then r.numberInReason else some r.confidence.mantissaText := by
  have hends : ∀ t, Ends ((r.gaps .confidence).after ++ ',' :: t) := fun t =>
    ends_blank (r.gaps .confidence).after_blank (ends_cons (.inl rfl) t)
  rw [search_malformed, before, search_other _ (by decide) _ (valueText_quoted _),
    search_this _ _ (valueText_number _), numberRun_number _ (hends _),
    search_other _ (by decide) _ (valueText_quoted _),
    search_other _ (by decide) _ (valueText_quoted _),
    search_other _ (by decide) _ (valueText_boolText _)]
  cases r.confidence.neg <;> rfl

theorem search_needsEscalation (r : SolverReply) :
    searchText (keyPattern SolveField.needsEscalation.key boolValue) r.malformed =
      some r.needsEscalation := by
  rw [search_malformed, before, search_other _ (by decide) _ (valueText_quoted _),
    search_other _ (by decide) _ (valueText_number _),
    search_other _ (by decide) _ (valueText_quoted _),
    search_other _ (by decide) _ (valueText_quoted _),
    search_this _ _ (valueText_boolText _), boolValue_boolText, Option.some_or]

end SolverReply

/-! ## Reading the malformed reply -/

theorem salvage_eq_none {text : Str}
    (hc : searchText (keyPattern SolveField.confidence.key numberRun) text = none) :
    salvage text = none := by
  unfold salvage
  cases searchText (fun s => (afterKey "answer".toList s).bind fun r =>
      match r with | '"' :: r => quotedRun r | _ => none) text with
  | none => rfl
  | some answer =>
      change Option.bind (searchText (keyPattern SolveField.confidence.key numberRun) text) _ = none
      rw [hc]
      rfl

/-- What the patterns find is what is salvaged. -/
theorem salvage_eq_some {text a c : Str} {e : Option Bool}
    (ha : searchText (keyPattern SolveField.answer.key stringValue) text = some a)
    (hc : searchText (keyPattern SolveField.confidence.key numberRun) text = some c)
    (he : searchText (keyPattern SolveField.needsEscalation.key boolValue) text = e) :
    ∃ fields, salvage text = some fields ∧
      fields.lookup "answer".toList = some (.str (unescapeQuotes a)) ∧
      fields.lookup "confidence".toList = some (.str c) ∧
      fields.lookup "needs_escalation".toList = some (.bool (e = some true)) := by
  unfold salvage
  change ∃ fields, Option.bind (searchText (keyPattern SolveField.answer.key stringValue) text)
    _ = some fields ∧ _
  rw [ha, Option.bind_some]
  change ∃ fields, Option.bind (searchText (keyPattern SolveField.confidence.key numberRun) text)
    _ = some fields ∧ _
  rw [hc, Option.bind_some]
  -- the two fields between may be missing
  have hskip : ∀ (o : Option Str) (key : Str) (t : List (Str × Json)),
      SolveField.needsEscalation.key ≠ key →
        ((o.toList.map fun v => (key, Json.str v)) ++ t).lookup SolveField.needsEscalation.key =
          t.lookup SolveField.needsEscalation.key := by
    intro o key t hkey
    cases o with
    | none => rfl
    | some v => simp [List.lookup_cons, beq_eq_false_iff_ne.mpr hkey]
  refine ⟨_, rfl, rfl, rfl, ?_⟩
  rw [← he, List.append_assoc, List.append_assoc]
  refine (hskip _ SolveField.taskType.key _ (by decide)).trans ?_
  exact hskip _ SolveField.difficulty.key _ (by decide)

theorem readAssessment_of_none (lib : StdLib) {text : Str} (h : salvage text = none)
    (stats : Option TokenStats) : (readAssessment lib (.str text) stats).map Assessment.recorded =
      .ok (text.take 4000, 15 / 100, true) := by
  have hnone : (Json.str text).str?.bind salvage = none := h
  simp only [readAssessment, hnone, Option.none_or, Json.obj?, Option.bind_none]
  rfl

theorem readAssessment_of_some (lib : StdLib) {text a c : Str} {e : Bool} {x : ℚ}
    {fields : List (Str × Json)} (h : salvage text = some fields)
    (ha : fields.lookup "answer".toList = some (.str a))
    (hc : fields.lookup "confidence".toList = some (.str c))
    (he : fields.lookup "needs_escalation".toList = some (.bool e))
    (hx : readNumber lib (1 / 2) (.str c) = .ok x) (stats : Option TokenStats) :
    (readAssessment lib (.str text) stats).map Assessment.recorded = .ok (a, x, e) := by
  have hsome : (Json.str text).str?.bind salvage = some fields := h
  simp only [readAssessment, hsome, Option.some_or, Option.bind_some, ha, hc, he,
    Option.filter_some, isScalar, if_true, Option.getD_some, hx]
  rfl

theorem exists_of_searchText {α : Type} {p : Str → Option α} {s : Str} {a : α}
    (h : searchText p s = some a) : ∃ t, p t = some a := by
  induction s with
  | nil => exact ⟨[], h⟩
  | cons c s ih =>
      rw [searchText, Option.or_eq_some_iff] at h
      rcases h with h | ⟨-, h⟩
      · exact ⟨_, h⟩
      · exact ih h

/-- Whether both ways to read the reply record the same. -/
def SalvageAgrees (lib : StdLib) (r : SolverReply) (stats : Option TokenStats) : Prop :=
  ∃ v, loads r.repaired = some v ∧
    (readAssessment lib (.str r.malformed) stats).map Assessment.recorded =
      (readAssessment lib v stats).map Assessment.recorded

/-- What the patterns know: characters as they are and escaped quotes; a number that is the
same double, clamped, without its exponent; and a zero with a sign if the reason has a number
that is read as zero in its place. -/
def SolverReply.Salvageable (lib : StdLib) (r : SolverReply) : Prop :=
  (∀ c ∈ r.answer, isPlain c = true) ∧
    if r.confidence.neg then
      ∃ run, r.numberInReason = some run ∧ Json.floatOfStr lib run = some (.fin 0)
    else clamp (roundDouble r.confidence.parts.mantissa) = roundDouble r.confidence.parts.number

/-- Digits are clamped to zero exactly when they are read as zero. -/
theorem clamp_digits_eq_zero {lib : StdLib} (hlib : lib.DigitLaws) {whole fraction : Str}
    (hw : ∀ c ∈ whole, isDigit c = true) (hf : ∀ c ∈ fraction, isDigit c = true)
    (hne : whole ++ fraction ≠ []) :
    clamp (roundDouble ((natOf (whole ++ fraction) : ℚ) / 10 ^ fraction.length)) = 0 ↔
      Json.floatOfStr lib (pointed whole fraction) = some (.fin 0) := by
  rw [floatOfStr_pointed hlib hw hf hne, Option.some.injEq]
  generalize hq : (natOf (whole ++ fraction) : ℚ) / 10 ^ fraction.length = q
  have hnonneg : 0 ≤ q := by
    rw [← hq]
    positivity
  have hpos := le_roundDouble isDouble_zero hnonneg
  have hbound := one_lt_floatBound
  constructor
  · intro h
    have hsmall : q < 1 := by
      by_contra hle
      rw [clamp_of_one_le (le_roundDouble isDouble_one (not_lt.mp hle))] at h
      exact one_ne_zero h
    rw [clamp_of_mem ⟨hpos, roundDouble_le isDouble_one hsmall.le⟩] at h
    rw [Json.roundFloat, if_neg (not_le.mpr (hsmall.trans hbound)), if_neg (by linarith), h]
  · intro h
    rw [← clampFloat_roundFloat, h]
    exact clamp_of_nonpos le_rfl

namespace SolverReply

theorem mantissa_eq (k : Number) :
    (natOf (k.whole ++ k.fraction) : ℚ) / 10 ^ k.fraction.length = k.parts.mantissa := rfl

/-- A number with a sign that is not negative is zero. -/
theorem number_of_neg (r : SolverReply) (h : r.confidence.neg = true) :
    r.confidence.parts.number = 0 := by
  refine le_antisymm ?_ r.confidence_mem.1
  have hmantissa : 0 ≤ r.confidence.parts.mantissa := by
    unfold Parts.mantissa
    positivity
  have hneg : r.confidence.parts.neg = true := h
  unfold Parts.number
  rw [hneg, if_pos rfl, neg_mul]
  have := mul_nonneg hmantissa (zpow_nonneg (by norm_num : (0 : ℚ) ≤ 10)
    (r.confidence.parts.exponent.getD 0))
  linarith

/-- What is recorded of a reply whose confidence is found. -/
theorem readAssessment_found {lib : StdLib} (hlib : lib.DigitLaws) (r : SolverReply)
    {whole fraction : Str} (hw : ∀ c ∈ whole, isDigit c = true)
    (hf : ∀ c ∈ fraction, isDigit c = true) (hne : whole ++ fraction ≠ [])
    (hc : searchText (keyPattern SolveField.confidence.key numberRun) r.malformed =
      some (pointed whole fraction)) (stats : Option TokenStats) :
    (readAssessment lib (.str r.malformed) stats).map Assessment.recorded =
      .ok (unescapeQuotes (bodyText r.answer),
        clamp (roundDouble ((natOf (whole ++ fraction) : ℚ) / 10 ^ fraction.length)),
        r.needsEscalation) := by
  obtain ⟨fields, hs, hla, hlc, hle⟩ :=
    salvage_eq_some r.search_answer hc r.search_needsEscalation
  have hle' : fields.lookup "needs_escalation".toList = some (.bool r.needsEscalation) := by
    rw [hle]
    cases r.needsEscalation <;> rfl
  exact readAssessment_of_some lib hs hla hlc hle' (readNumber_pointed hlib _ hw hf hne) stats

end SolverReply

/-- **Salvaging agrees with the real reader** on the spellings the patterns know, and on no
others. -/
theorem salvage_agrees_iff (lib : StdLib) (hlib : lib.DigitLaws) (r : SolverReply)
    (stats : Option TokenStats) : SalvageAgrees lib r stats ↔ r.Salvageable lib := by
  have hloads : SalvageAgrees lib r stats ↔
      (readAssessment lib (.str r.malformed) stats).map Assessment.recorded =
        .ok (bodyValue r.answer, roundDouble r.confidence.parts.number, r.needsEscalation) := by
    simp only [SalvageAgrees, r.loads_repaired, Option.some.injEq, exists_eq_left',
      readAssessment_repaired]
  have hsearch := r.search_confidence
  rw [hloads, SolverReply.Salvageable]
  cases hneg : r.confidence.neg with
  | false =>
      have hne : r.confidence.whole ++ r.confidence.fraction ≠ [] := by
        rcases r.confidence.whole_mem with h | ⟨c, ds, h, -⟩ <;> simp [h]
      rw [hneg, if_neg (by decide), mantissaText_eq] at hsearch
      rw [r.readAssessment_found hlib r.confidence.whole_all r.confidence.fraction_all hne hsearch,
        if_neg (by decide), SolverReply.mantissa_eq]
      simp only [Except.ok.injEq, Prod.mk.injEq, and_true, unescapeQuotes_eq_iff]
  | true =>
      rw [hneg, if_pos rfl] at hsearch
      rw [if_pos rfl, r.number_of_neg hneg, isDouble_zero.roundDouble_eq]
      cases hrun : r.numberInReason with
      | none =>
          -- nothing is salvaged, and the reply counts as unstructured
          rw [readAssessment_of_none lib (salvage_eq_none (hsearch.trans hrun)) stats]
          have hconf : (15 / 100 : ℚ) ≠ 0 := by norm_num
          simp [hconf]
      | some run =>
          obtain ⟨t, ht⟩ := exists_of_searchText hrun
          obtain ⟨s, -, hs⟩ := Option.bind_eq_some_iff.mp ht
          obtain ⟨whole, fraction, rfl, hw, hf, hne⟩ := numberRun_eq_some hs
          rw [r.readAssessment_found hlib hw hf hne (hsearch.trans hrun)]
          simp only [Except.ok.injEq, Prod.mk.injEq, and_true, unescapeQuotes_eq_iff,
            clamp_digits_eq_zero hlib hw hf hne, Option.some.injEq, exists_eq_left']

theorem digitLaws_asciiLib : asciiLib.DigitLaws where
  ascii c _ := by
    have hdigit : c.isDigit = true ↔ '0' ≤ c ∧ c ≤ '9' := by
      simp [Char.isDigit, Char.le_def, UInt32.le_iff_toNat_le]
    show (if c.isDigit then _ else _) = _
    simp only [hdigit]

/-- How `0.9` is spelled. -/
def nineTenths : Number where
  neg := false
  whole := ['0']
  fraction := ['9']
  exponent := none
  whole_mem := .inl rfl
  whole_all := by simp [isDigit]
  fraction_all := by simp [isDigit]

theorem mantissa_nineTenths : nineTenths.parts.mantissa = 9 / 10 := by
  have hdigits : natOf (nineTenths.parts.whole ++ nineTenths.parts.fraction) = 9 := rfl
  have hlen : nineTenths.parts.fraction.length = 1 := rfl
  rw [Parts.mantissa, hdigits, hlen]
  norm_num

theorem number_nineTenths : nineTenths.parts.number = 9 / 10 := by
  have hneg : nineTenths.parts.neg = false := rfl
  have hexp : nineTenths.parts.exponent = none := rfl
  rw [Parts.number, hneg, hexp, mantissa_nineTenths]
  norm_num

/-- A reply without white space whose confidence is `0.9` and whose reason is `"`. -/
def shortReply (answer : List StrChar) : SolverReply where
  answer := answer
  confidence := nineTenths
  taskType := []
  difficulty := []
  needsEscalation := false
  reason := [none]
  gaps _ := ⟨[], [], [], [], nofun, nofun, nofun, nofun⟩
  lead := []
  trail := []
  lead_blank := nofun
  trail_blank := nofun
  confidence_mem := by
    rw [number_nineTenths]
    norm_num

/-- An answer that is an escaped quote. -/
theorem salvage_agrees_quote : SalvageAgrees asciiLib (shortReply [escapedQuote]) none := by
  refine (salvage_agrees_iff asciiLib digitLaws_asciiLib (shortReply [escapedQuote]) none).mpr
    ⟨by decide, ?_⟩
  show clamp (roundDouble nineTenths.parts.mantissa) = roundDouble nineTenths.parts.number
  rw [mantissa_nineTenths, number_nineTenths]
  exact clamp_of_mem ⟨le_roundDouble isDouble_zero (by norm_num),
    roundDouble_le isDouble_one (by norm_num)⟩

/-- A line break in the answer is salvaged as a backslash and a letter. -/
theorem salvage_disagrees_newline :
    ¬ SalvageAgrees asciiLib (shortReply [.letter 'n' '\n' rfl]) none := by
  rintro ⟨v, hv, h⟩
  have hread := (shortReply [.letter 'n' '\n' rfl]).readAssessment_found digitLaws_asciiLib
    nineTenths.whole_all nineTenths.fraction_all (by decide)
    (SolverReply.search_confidence _) none
  obtain rfl := Option.some.inj ((SolverReply.loads_repaired _).symm.trans hv)
  rw [hread, readAssessment_repaired] at h
  have hanswer := congrArg Prod.fst (Except.ok.inj h)
  revert hanswer
  decide

end HorizonRelay
