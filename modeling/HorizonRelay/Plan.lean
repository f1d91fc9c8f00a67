import HorizonRelay.Results
import Mathlib.Data.List.Nodup
import Mathlib.Data.List.Perm.Subperm

/-!
# Plans

The cloud planner's task graph, read from untrusted JSON and checked before any worker
runs.

## Main definitions

* `Task`, `Plan` — the validated graph.
* `Plan.parse` — the reader, with the errors it reports back to the planner.

## Main results

* `Plan.isSome_checkAcyclic` — the loop that looks for cycles ends.
-/

namespace HorizonRelay

open Py

/-- One subtask of a plan. -/
structure Task : Type where
  id : Str
  instruction : Str
  preferredTier : Tier
  /-- `"sources.KEY"` or `"results.TASK_ID"`. -/
  inputRefs : List Str
  dependsOn : List Str
  resultType : ResultType
  checks : List Str
  why : Str := []
  deriving DecidableEq

structure Plan : Type where
  tasks : List Task
  finalInstruction : Str
  deriving DecidableEq

namespace Plan

private def refuse {α : Type} (msg : String) : Except Exc α :=
  .error (validationError msg.toList)

/-- `if wrong: raise ValidationError(msg)`. -/
def refuseIf (wrong : Prop) [Decidable wrong] (msg : String) : Except Exc Unit :=
  if wrong then refuse msg else .ok ()

/-- The fields of a task row: version 1 has no `why`. -/
def taskFields (version : ℤ) : List Str :=
  ["id".toList, "instruction".toList, "preferred_tier".toList, "input_refs".toList,
    "depends_on".toList, "result_type".toList, "checks".toList] ++
    if version = 1 then [] else ["why".toList]

/-- A text field of a row, of 1 to 2000 characters. -/
def textField (row : List (Str × Json)) (key : Str) : Except Exc Str :=
  match (row.lookup key).bind Json.str? with
  | some s =>
      if 1 ≤ s.length ∧ s.length ≤ 2000 then .ok s
      else .error (validationError ("Invalid task ".toList ++ key))
  | none => .error (validationError ("Invalid task ".toList ++ key))

/-- A list field of a row: at most 12 distinct strings. -/
def listField (row : List (Str × Json)) (key : Str) : Except Exc (List Str) :=
  match ((row.lookup key).bind Json.arr?).bind Json.strs? with
  | some values =>
      if values.length ≤ 12 ∧ values.Nodup then .ok values
      else .error (validationError ("Invalid task ".toList ++ key))
  | none => .error (validationError ("Invalid task ".toList ++ key))

/-- `re.fullmatch(r"[a-z][a-z0-9_]{0,63}", id)`. -/
def isTaskId : Str → Bool
  | [] => false
  | c :: rest =>
      lower c && rest.all (fun d => lower d || ('0' ≤ d && d ≤ '9') || d = '_') &&
        rest.length ≤ 63
where
  lower (c : Char) : Bool := 'a' ≤ c && c ≤ 'z'

/-- The reason of a task, which version 1 has not. -/
def whyField (version : ℤ) (row : List (Str × Json)) : Except Exc Str :=
  if version = 1 then .ok [] else textField row "why".toList

/-- One row of the plan. -/
def parseTask (version : ℤ) (tiers : List Tier) (row : Json) : Except Exc Task :=
  match row.obj? with
  | none => refuse "Unexpected or missing task fields"
  | some row => do
      refuseIf (¬ Json.hasKeys row (taskFields version)) "Unexpected or missing task fields"
      let id ← textField row "id".toList
      let instruction ← textField row "instruction".toList
      let preferredTier ← textField row "preferred_tier".toList
      let resultType ← textField row "result_type".toList
      let why ← whyField version row
      refuseIf (¬ isTaskId id) "Invalid task ID"
      match (Tier.ofName? preferredTier).filter tiers.contains, ResultType.ofName? resultType with
      | some tier, some kind => do
          let inputRefs ← listField row "input_refs".toList
          let dependsOn ← listField row "depends_on".toList
          let checks ← listField row "checks".toList
          refuseIf (¬ (checks.all kind.checks.contains && kind.checks.all checks.contains))
            "Required checks cannot be omitted or replaced"
          refuseIf inputRefs.isEmpty "Task needs inputs"
          pure { id, instruction, preferredTier := tier, inputRefs, dependsOn,
                 resultType := kind, checks, why }
      | _, _ => refuse "Unknown task tier or result type"

/-- Whether an input reference names a supplied source or a declared dependency. -/
def refOk (sources : List Str) (task : Task) (ref : Str) : Bool :=
  let (kind, _, key) := ref.partition '.'
  (kind = "sources".toList && sources.contains key) ||
    (kind = "results".toList && task.dependsOn.contains key)

/-- The references of one task. -/
def checkRefs (sources : List Str) (ids : List Str) (task : Task) : Except Exc Unit := do
  refuseIf (!task.dependsOn.all ids.contains || task.dependsOn.contains task.id)
    "Unknown or self dependency"
  refuseIf (¬ task.inputRefs.all (refOk sources task))
    "Unknown source or undeclared result dependency"

/-- The tasks not resolved yet whose dependencies all are. -/
def peel (tasks : List Task) (resolved : List Str) : List Str :=
  (tasks.filter fun t => !resolved.contains t.id && t.dependsOn.all resolved.contains).map
    Task.id

/-- `while len(resolved) < len(tasks)`: resolve what can be until everything is, or refuse
a cycle. It has no outcome when the turns do not suffice. -/
def checkAcyclic (tasks : List Task) (turns : ℕ) (resolved : List Str) :
    Option (Except Exc Unit) :=
  if tasks.length ≤ resolved.length then some (.ok ())
  else match turns with
    | 0 => none
    | turns + 1 =>
        match peel tasks resolved with
        | [] => some (refuse "Cyclic task dependencies")
        | ready => checkAcyclic tasks turns (resolved ++ ready)

/-- Each turn resolves a task, so as many turns as tasks are enough. -/
theorem isSome_checkAcyclic {tasks : List Task} {turns : ℕ} {resolved : List Str}
    (h : tasks.length ≤ resolved.length + turns) :
    (checkAcyclic tasks turns resolved).isSome := by
  induction turns generalizing resolved with
  | zero =>
      rw [checkAcyclic, if_pos (by omega)]
      rfl
  | succ turns ih =>
      unfold checkAcyclic
      split
      · rfl
      · simp only
        split
        · rfl
        · rename_i hpeel
          refine ih ?_
          have hne : 0 < (peel tasks resolved).length := List.length_pos_iff.mpr hpeel
          rw [List.length_append]
          omega

/-- The loop, run to its end. -/
def refuseCycles (tasks : List Task) : Except Exc Unit :=
  (checkAcyclic tasks tasks.length []).get (isSome_checkAcyclic (by simp))

theorem checkAcyclic_eq_some {tasks : List Task} :
    checkAcyclic tasks tasks.length [] = some (refuseCycles tasks) :=
  (Option.some_get _).symm

/-- Read and check a plan. -/
def parse (value : Json) (sources : List Str) (maxTasks : ℕ) (tiers : List Tier) :
    Except Exc Plan :=
  match value.obj? with
  | none => refuse "Plan must contain version, tasks, and final_instruction"
  | some fields =>
      if !Json.hasKeys fields ["version".toList, "tasks".toList, "final_instruction".toList]
      then refuse "Plan must contain version, tasks, and final_instruction"
      else match fields.lookup "version".toList with
        | some (.int version) =>
            if version ≠ 1 ∧ version ≠ 2 then refuse "Unsupported plan version"
            else match (fields.lookup "tasks".toList).bind Json.arr? with
              | none => refuse "Plan task count exceeds limits or is empty"
              | some rows =>
                  if ¬ (1 ≤ rows.length ∧ rows.length ≤ maxTasks) then
                    refuse "Plan task count exceeds limits or is empty"
                  else match (fields.lookup "final_instruction".toList).bind Json.str? with
                    | none => refuse "Invalid final instruction"
                    | some instruction =>
                        if ¬ (1 ≤ instruction.length ∧ instruction.length ≤ 2000) then
                          refuse "Invalid final instruction"
                        else do
                          let tasks ← rows.mapM (parseTask version tiers)
                          refuseIf (¬ (tasks.map Task.id).Nodup) "Duplicate task IDs"
                          tasks.forM (checkRefs sources (tasks.map Task.id))
                          refuseCycles tasks
                          pure { tasks, finalInstruction := instruction }
        | _ => refuse "Unsupported plan version"

/-! ## Errors of the reader -/

private theorem raises_refuse {α : Type} (msg : String) :
    Raises Refusal (refuse msg : Except Exc α) := by
  simp [refuse]

theorem raises_refuseIf (wrong : Prop) [Decidable wrong] (msg : String) :
    Raises Refusal (refuseIf wrong msg) := by
  unfold refuseIf
  split
  · exact raises_refuse msg
  · exact raises_ok _

theorem raises_textField (row : List (Str × Json)) (key : Str) :
    Raises Refusal (textField row key) := by
  unfold textField
  repeat' split
  all_goals simp

theorem raises_listField (row : List (Str × Json)) (key : Str) :
    Raises Refusal (listField row key) := by
  unfold listField
  repeat' split
  all_goals simp

theorem raises_whyField (version : ℤ) (row : List (Str × Json)) :
    Raises Refusal (whyField version row) := by
  unfold whyField
  split
  · exact raises_ok _
  · exact raises_textField _ _

theorem raises_parseTask (version : ℤ) (tiers : List Tier) (row : Json) :
    Raises Refusal (parseTask version tiers row) := by
  unfold parseTask
  split
  · exact raises_refuse _
  · refine (raises_refuseIf _ _).bind fun _ => (raises_textField _ _).bind fun _ =>
      (raises_textField _ _).bind fun _ => (raises_textField _ _).bind fun _ =>
      (raises_textField _ _).bind fun _ => (raises_whyField _ _).bind fun _ =>
      (raises_refuseIf _ _).bind fun _ => ?_
    split
    · exact (raises_listField _ _).bind fun _ => (raises_listField _ _).bind fun _ =>
        (raises_listField _ _).bind fun _ => (raises_refuseIf _ _).bind fun _ =>
        (raises_refuseIf _ _).bind fun _ => raises_ok _
    · exact raises_refuse _

theorem raises_checkRefs (sources ids : List Str) (task : Task) :
    Raises Refusal (checkRefs sources ids task) :=
  (raises_refuseIf _ _).bind fun _ => raises_refuseIf _ _

theorem raises_checkAcyclic {tasks : List Task} {turns : ℕ} {resolved : List Str}
    {r : Except Exc Unit} (h : checkAcyclic tasks turns resolved = some r) :
    Raises Refusal r := by
  induction turns generalizing resolved with
  | zero =>
      unfold checkAcyclic at h
      split at h <;> cases h
      exact raises_ok _
  | succ turns ih =>
      unfold checkAcyclic at h
      split at h
      · cases h
        exact raises_ok _
      · simp only at h
        split at h
        · cases h
          exact raises_refuse _
        · exact ih h

/-- The reader raises nothing but a `ValidationError`. -/
theorem raises_parse (value : Json) (sources : List Str) (maxTasks : ℕ) (tiers : List Tier) :
    Raises Refusal (parse value sources maxTasks tiers) := by
  unfold parse
  repeat' split
  all_goals try exact raises_refuse _
  refine (Raises.mapM (raises_parseTask _ _) _).bind fun tasks =>
    (raises_refuseIf _ _).bind fun _ => (Raises.forM (raises_checkRefs _ _) _).bind fun _ =>
    (raises_checkAcyclic checkAcyclic_eq_some).bind fun _ => raises_ok _

theorem fresh_parse (value : Json) (sources : List Str) (maxTasks : ℕ) (tiers : List Tier) :
    Fresh (parse value sources maxTasks tiers) := by
  refine (raises_parse value sources maxTasks tiers).mono ?_
  rintro e ⟨msg, rfl⟩
  exact ofCheck_validationError msg

/-! ## What an accepted plan satisfies -/

@[simp] theorem refuse_ne_ok {α : Type} {msg : String} {a : α} :
    (refuse msg : Except Exc α) ≠ .ok a := by
  simp [refuse]

@[simp] theorem refuseIf_eq_ok {wrong : Prop} [Decidable wrong] {msg : String} {u : Unit} :
    refuseIf wrong msg = .ok u ↔ ¬ wrong := by
  unfold refuseIf refuse
  split <;> simp_all

/-- The tier of an accepted task is one of the provider's. -/
theorem preferredTier_of_parseTask {version : ℤ} {tiers : List Tier} {row : Json} {task : Task}
    (h : parseTask version tiers row = .ok task) : task.preferredTier ∈ tiers := by
  unfold parseTask at h
  split at h
  · cases h
  · simp only [bind_eq_ok] at h
    obtain ⟨_, -, id, -, instruction, -, tier, -, kind, -, why, -, _, -, h⟩ := h
    split at h
    · rename_i tier' _ htier _
      simp only [bind_eq_ok] at h
      obtain ⟨_, -, _, -, _, -, _, -, _, -, h⟩ := h
      cases h
      simpa using (Option.filter_eq_some_iff.mp htier).2
    · cases h

theorem forall_of_mapM_eq_ok {α β : Type} {f : α → Except Exc β} {as : List α} {bs : List β}
    (h : as.mapM f = .ok bs) : bs.length = as.length ∧ ∀ b ∈ bs, ∃ a ∈ as, f a = .ok b := by
  induction as generalizing bs with
  | nil =>
      cases h
      simp
  | cons a as ih =>
      rw [List.mapM_cons] at h
      simp only [bind_eq_ok] at h
      obtain ⟨b, hb, bs', hbs, h⟩ := h
      cases h
      obtain ⟨hlen, hall⟩ := ih hbs
      refine ⟨by simp [hlen], ?_⟩
      intro b' hb'
      rcases List.mem_cons.mp hb' with rfl | hb'
      · exact ⟨a, by simp, hb⟩
      · obtain ⟨a', ha', h⟩ := hall b' hb'
        exact ⟨a', by simp [ha'], h⟩

theorem forall_of_forM_eq_ok {α : Type} {f : α → Except Exc Unit} {as : List α}
    (h : as.forM f = .ok ()) : ∀ a ∈ as, f a = .ok () := by
  induction as with
  | nil => simp
  | cons a as ih =>
      have h : (f a >>= fun _ => as.forM f) = .ok () := h
      obtain ⟨u, ha, h⟩ := bind_eq_ok.mp h
      intro b hb
      rcases List.mem_cons.mp hb with rfl | hb
      · exact ha
      · exact ih h b hb

/-- The dependencies and references of an accepted task. -/
theorem checkRefs_eq_ok {sources ids : List Str} {task : Task}
    (h : checkRefs sources ids task = .ok ()) :
    (∀ d ∈ task.dependsOn, d ∈ ids) ∧
      ∀ ref ∈ task.inputRefs, refOk sources task ref = true := by
  unfold checkRefs at h
  simp only [bind_eq_ok, refuseIf_eq_ok, not_not] at h
  obtain ⟨_, hdeps, hrefs⟩ := h
  have hdeps : (∀ d ∈ task.dependsOn, d ∈ ids) ∧ task.id ∉ task.dependsOn := by
    simpa using hdeps
  exact ⟨hdeps.1, List.all_eq_true.mp hrefs⟩

/-- What an accepted plan satisfies. -/
structure Accepted (plan : Plan) (sources : List Str) (maxTasks : ℕ) (tiers : List Tier) :
    Prop where
  nonempty : plan.tasks ≠ []
  length_le : plan.tasks.length ≤ maxTasks
  ids : (plan.tasks.map Task.id).Nodup
  tier : ∀ task ∈ plan.tasks, task.preferredTier ∈ tiers
  closed : ∀ task ∈ plan.tasks, ∀ d ∈ task.dependsOn, d ∈ plan.tasks.map Task.id
  refs : ∀ task ∈ plan.tasks, ∀ ref ∈ task.inputRefs, refOk sources task ref = true
  acyclic : refuseCycles plan.tasks = .ok ()

/-- **What the reader accepts.** -/
theorem accepted_of_parse {value : Json} {sources : List Str} {maxTasks : ℕ}
    {tiers : List Tier} {plan : Plan} (h : parse value sources maxTasks tiers = .ok plan) :
    Accepted plan sources maxTasks tiers := by
  unfold parse at h
  repeat' split at h
  all_goals try cases h
  rename_i rows _ hrows _ instruction _ _
  simp only [bind_eq_ok, refuseIf_eq_ok, not_not] at h
  obtain ⟨tasks, htasks, _, hids, _, hrefs, _, hacyclic, h⟩ := h
  cases h
  obtain ⟨hlen, hall⟩ := forall_of_mapM_eq_ok htasks
  have hrows : 1 ≤ rows.length ∧ rows.length ≤ maxTasks := not_not.mp hrows
  refine
    { nonempty := ?_, length_le := hlen ▸ hrows.2, ids := hids
      tier := fun task ht => ?_, closed := fun task ht d hd => ?_
      refs := fun task ht ref href => ?_, acyclic := hacyclic }
  · rintro rfl
    have := hrows.1
    simp at hlen
    omega
  · obtain ⟨row, -, hrow⟩ := hall task ht
    exact preferredTier_of_parseTask hrow
  · exact (checkRefs_eq_ok (forall_of_forM_eq_ok hrefs task ht)).1 d hd
  · exact (checkRefs_eq_ok (forall_of_forM_eq_ok hrefs task ht)).2 ref href

theorem mem_peel {tasks : List Task} {resolved : List Str} {k : Str} :
    k ∈ peel tasks resolved ↔
      ∃ t ∈ tasks, t.id = k ∧ t.id ∉ resolved ∧ ∀ d ∈ t.dependsOn, d ∈ resolved := by
  simp [peel, and_comm, and_left_comm]

theorem nodup_append_peel {tasks : List Task} (hids : (tasks.map Task.id).Nodup)
    {resolved : List Str} (h : resolved.Nodup) : (resolved ++ peel tasks resolved).Nodup := by
  refine List.Nodup.append h (hids.sublist (List.filter_sublist.map _)) ?_
  intro k hk hk'
  obtain ⟨t, -, rfl, hnot, -⟩ := mem_peel.mp hk'
  exact hnot hk

/-- If every task outside `keys` waits for another one, an acyclic graph has no such task.
By induction on the turns: whatever is resolved is in `keys`, and in the end all is. -/
theorem subset_of_checkAcyclic {tasks : List Task} (hids : (tasks.map Task.id).Nodup)
    {keys : List Str} (hwait : ∀ t ∈ tasks, t.id ∉ keys → ∃ d ∈ t.dependsOn, d ∉ keys)
    {turns : ℕ} {resolved : List Str} (h : checkAcyclic tasks turns resolved = some (.ok ()))
    (hnodup : resolved.Nodup) (hsub : resolved ⊆ tasks.map Task.id) (hkeys : resolved ⊆ keys) :
    tasks.map Task.id ⊆ keys := by
  have hfull : ∀ resolved : List Str, resolved.Nodup → resolved ⊆ tasks.map Task.id →
      resolved ⊆ keys → tasks.length ≤ resolved.length → tasks.map Task.id ⊆ keys := by
    intro resolved hnodup hsub hkeys hle k hk
    have hperm := (List.subperm_of_subset hnodup hsub).perm_of_length_le (by simpa using hle)
    exact hkeys (hperm.mem_iff.mpr hk)
  induction turns generalizing resolved with
  | zero =>
      unfold checkAcyclic at h
      split at h
      · rename_i hle
        exact hfull _ hnodup hsub hkeys hle
      · cases h
  | succ turns ih =>
      unfold checkAcyclic at h
      split at h
      · rename_i hle
        exact hfull _ hnodup hsub hkeys hle
      · simp only at h
        split at h
        · cases h
        · refine ih h (nodup_append_peel hids hnodup) ?_ ?_
          · refine List.append_subset.mpr ⟨hsub, fun k hk => ?_⟩
            obtain ⟨t, ht, rfl, -, -⟩ := mem_peel.mp hk
            exact List.mem_map_of_mem ht
          · refine List.append_subset.mpr ⟨hkeys, fun k hk => ?_⟩
            obtain ⟨t, ht, rfl, -, hdeps⟩ := mem_peel.mp hk
            by_contra hnot
            obtain ⟨d, hd, hd'⟩ := hwait t ht hnot
            exact hd' (hkeys (hdeps d hd))

theorem refuseCycles_eq_ok_iff {tasks : List Task} :
    refuseCycles tasks = .ok () ↔ checkAcyclic tasks tasks.length [] = some (.ok ()) := by
  rw [checkAcyclic_eq_some, Option.some.injEq]

/-- While a task of an accepted plan is not done, one of those can be run. -/
theorem Accepted.exists_ready {plan : Plan} {sources : List Str} {maxTasks : ℕ}
    {tiers : List Tier} (h : plan.Accepted sources maxTasks tiers) {keys : List Str} {task : Task}
    (ht : task ∈ plan.tasks) (hk : task.id ∉ keys) :
    ∃ t ∈ plan.tasks, t.id ∉ keys ∧ ∀ d ∈ t.dependsOn, d ∈ keys := by
  by_contra hnone
  push Not at hnone
  exact hk (subset_of_checkAcyclic h.ids hnone (refuseCycles_eq_ok_iff.mp h.acyclic)
    List.nodup_nil (List.nil_subset _) (List.nil_subset _) (List.mem_map_of_mem ht))

end Plan

end HorizonRelay
