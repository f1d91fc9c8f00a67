import HorizonRelay.Settings
import HorizonRelay.Lib.Dict

/-!
# Subtask results and their checks

What a worker may return for each kind of subtask, and the separation of a model's
judgment of its own work from that work.

## Main definitions

* `ResultType`, `validateResult` — the kinds of result, and the check each must pass.
* `splitJudgment` — the answer without the judgment, and the judgment.
-/

namespace HorizonRelay

open Py

/-- The kinds of subtask result. -/
inductive ResultType : Type
  | taskAnswer
  | reportExtraction
  | reportGroups
  deriving DecidableEq

namespace ResultType

def name : ResultType → Str
  | taskAnswer => "task_answer".toList
  | reportExtraction => "report_extraction".toList
  | reportGroups => "report_groups".toList

/-- The checks a plan must list for this kind, exactly these. -/
def checks : ResultType → List Str
  | taskAnswer => ["required_fields".toList]
  | reportExtraction => ["required_fields".toList, "source_quotes_match".toList]
  | reportGroups => ["required_fields".toList, "report_ids_preserved".toList]

/-- `RESULT_TYPES[name]`. -/
def ofName? (s : Str) : Option ResultType :=
  [taskAnswer, reportExtraction, reportGroups].find? fun t => t.name = s

end ResultType

/-- The inputs of a subtask, by reference. -/
abbrev Inputs := Dict Str Json

/-- `"sources."`. -/
def sourcesPrefix : Str := "sources.".toList

private def invalid (msg : String) : Except Exc Unit := .error (validationError msg.toList)

/-- Check a `task_answer`. -/
def taskAnswer (fields : List (Str × Json)) : Except Exc Unit :=
  let refused :=
    invalid "Task answer requires nonempty answer text of at most 16000 characters"
  if !Json.hasKeys fields ["answer".toList] then refused
  else match (fields.lookup "answer".toList).bind Json.str? with
    | none => refused
    | some answer =>
        let n := answer.strip.length
        if 1 ≤ n ∧ n ≤ 16000 then .ok () else refused

/-- Check a `report_extraction`: a verbatim quote of the one source the task reads. -/
def reportExtraction (fields : List (Str × Json)) (inputs : Inputs) : Except Exc Unit :=
  if !Json.hasKeys fields ["report_id".toList, "quote".toList] then
    invalid "Extraction requires report_id and quote"
  else match (fields.lookup "report_id".toList).bind Json.str?,
      (fields.lookup "quote".toList).bind Json.str? with
    | some reportId, some quote =>
        if quote.strip.isEmpty then invalid "Invalid or empty report evidence"
        else match (inputs.get? (sourcesPrefix ++ reportId)).bind Json.str? with
          | none => invalid "Quote does not match the assigned source"
          | some source =>
              if !source.contains quote then
                invalid "Quote does not match the assigned source"
              else if inputs.keys.filter sourcesPrefix.isPrefixOf ≠
                  [sourcesPrefix ++ reportId] then
                invalid "Extraction must cover its single assigned source"
              else .ok ()
    | _, _ => invalid "Invalid or empty report evidence"

/-- The report ids of the inputs, as a set; an id Python cannot hash raises. -/
def expectedReports (inputs : Inputs) : Except Exc (List HashKey) :=
  let ids := inputs.values.filterMap fun v => v.get? "report_id".toList
  match ids.mapM Json.hashKey with
  | some keys => .ok keys.dedup
  | none => .error (pyError "TypeError".toList)

/-- The report ids of one group. -/
def groupIds (group : Json) : Except Exc (List Str) :=
  match group.obj? with
  | none => .error (validationError "Invalid group fields".toList)
  | some fields =>
      if !Json.hasKeys fields ["label".toList, "report_ids".toList] then
        .error (validationError "Invalid group fields".toList)
      else match (fields.lookup "label".toList).bind Json.str? with
        | none => .error (validationError "Invalid group label".toList)
        | some label =>
            if ¬ (1 ≤ label.length ∧ label.length ≤ 300) then
              .error (validationError "Invalid group label".toList)
            else
              match ((fields.lookup "report_ids".toList).bind Json.arr?).bind Json.strs? with
              | some (id :: ids) => .ok (id :: ids)
              | _ => .error (validationError "Invalid group report IDs".toList)

/-- Check `report_groups`: every report of the inputs in exactly one group. -/
def reportGroups (fields : List (Str × Json)) (inputs : Inputs) : Except Exc Unit :=
  if !Json.hasKeys fields ["groups".toList] then invalid "Grouping requires nonempty groups"
  else match (fields.lookup "groups".toList).bind Json.arr? with
    | some (g :: gs) => do
        let expected ← expectedReports inputs
        if expected.isEmpty || expected.length ≠ inputs.keys.length then
          invalid "Grouping needs one extraction per report"
        let actual := (← (g :: gs).mapM groupIds).flatten
        if actual.length ≠ expected.length ||
            !(actual.all fun i => expected.contains (.str i)) ||
            !(expected.all fun k => actual.any fun i => k = .str i) then
          invalid "Every report ID must occur exactly once"
    | _ => invalid "Grouping requires nonempty groups"

/-- The check a result must pass before the relay accepts it. -/
def validateResult (resultType : ResultType) (value : Json) (inputs : Inputs) :
    Except Exc Unit :=
  match value.obj? with
  | none => invalid "Worker must return an object"
  | some fields =>
      match resultType with
      | .taskAnswer => taskAnswer fields
      | .reportExtraction => reportExtraction fields inputs
      | .reportGroups => reportGroups fields inputs

/-! ## Errors of the checks -/

private theorem fresh_invalid (msg : String) : Fresh (invalid msg) := by
  simp [invalid]

theorem fresh_expectedReports (inputs : Inputs) : Fresh (expectedReports inputs) := by
  unfold expectedReports
  simp only
  split <;> simp

theorem fresh_groupIds (group : Json) : Fresh (groupIds group) := by
  unfold groupIds
  repeat' split
  all_goals simp

theorem fresh_reportGroups (fields : List (Str × Json)) (inputs : Inputs) :
    Fresh (reportGroups fields inputs) := by
  unfold reportGroups
  split
  · exact fresh_invalid _
  · split
    · refine (fresh_expectedReports inputs).bind fun expected => ?_
      split
      · refine (fresh_invalid _).bind fun _ => ?_
        refine (Fresh.mapM fresh_groupIds _).bind fun groups => ?_
        simp only
        split
        · exact fresh_invalid _
        · exact fresh_pure _
      · refine (Fresh.mapM fresh_groupIds _).bind fun groups => ?_
        simp only
        split
        · exact fresh_invalid _
        · exact fresh_pure _
    · exact fresh_invalid _

/-- The check of a result raises errors of its own only. -/
theorem fresh_validateResult (kind : ResultType) (v : Json) (inputs : Inputs) :
    Fresh (validateResult kind v inputs) := by
  unfold validateResult
  split
  · exact fresh_invalid _
  · split
    · unfold taskAnswer
      simp only
      repeat' split
      all_goals first | exact fresh_invalid _ | exact fresh_ok _
    · unfold reportExtraction
      repeat' split
      all_goals first | exact fresh_invalid _ | exact fresh_ok _
    · exact fresh_reportGroups _ _

/-! ## Judgments -/

/-- A model's judgment of its own work, shown to people only. -/
structure Judgment : Type where
  confidence : Option Str
  note : Str

def judgmentKeys : List Str := ["confidence".toList, "reason".toList, "concern".toList]

/-- Separate a model's self-assessment from its answer. -/
def splitJudgment (value : Json) : Json × Option Judgment :=
  match value.obj? with
  | none => (value, none)
  | some fields =>
      if !judgmentKeys.any (fun k => (fields.lookup k).isSome) then (value, none)
      else
        let rest := fields.filter fun f => !judgmentKeys.contains f.1
        let level := ((fields.lookup "confidence".toList).bind Json.str?).filter
          fun l => ["low".toList, "medium".toList, "high".toList].contains l
        let field (k : String) := (fields.lookup k.toList).filter Json.truthy
        let note := match (field "reason").or (field "concern") with
          | some (.str s) => s.strip.take 300
          | _ => []
        (.obj rest, if level.isSome || !note.isEmpty then some ⟨level, note⟩ else none)

end HorizonRelay
