import HorizonRelay.Lib.Dataflow
import HorizonRelay.Runs.Payment

/-!
# What a plan computes

A plan is a program: its tasks are cells, and the value of a task is what its worker comes to
on the values of the tasks it depends on.  That meaning mentions no batches, no workers and no
order.  The engine runs the tasks in parallel, and what it accepts is what the plan means:
two runs of a plan come to the same values however their workers interleave, whoever
watches them, and whatever the models say about their own work.

## Main definitions

* `climb` — a worker by itself: its calls one after the other, and the value it accepts.
* `taskRule` — the meaning of a task, given the values of its dependencies.
* `answering` — runs in which the provider answers work calls as a function does.
* `Alike` — answers that differ in what is kept for people only.

## Main results

* `plan_computed` — the results of a run are the values of the plan's tasks.
* `results_determined` — two runs of a plan accept the same results after the same calls.
-/

namespace HorizonRelay

open Py Coop

variable {x x' : Setup} {f f' : Tier → Payload → Choice} {p : Plan} {l l' : Ledger} {task : Task}
  {inputs : Inputs} {permit : Permit}

/-! ## A worker by itself -/

/-- Why an attempt that ended so counts as failed, if it does. -/
def failureOf (task : Task) (inputs : Inputs) : Except Exc Json → Option Str
  | .error e => if e.isRelayError && e.cls ≠ .budget then some e.msg else none
  | .ok v =>
      match validateResult task.resultType v inputs with
      | .error e => if e.cls = .validation then some e.msg else none
      | .ok () => none

/-- The value accepted from an attempt that ended so. -/
def valueAccepted (task : Task) (inputs : Inputs) : Except Exc Json → Option Json
  | .ok v => if validateResult task.resultType v inputs = .ok () then some v else none
  | .error _ => none

/-- What a worker does on the tiers that are left, after some errors: the calls it makes, and
the value it accepts in the end. -/
def climb (goal : Str) (f : Tier → Payload → Choice) (task : Task) (inputs : Inputs) :
    List Tier → List Str → List (Tier × Payload) × Option Json
  | [], _ => ([], none)
  | tier :: tiers, errors =>
      let p : Payload := .work task inputs goal (errors.length + 1) errors
      let r := endOf .work 0 (f tier p)
      match failureOf task inputs r with
      | some e =>
          let rest := climb goal f task inputs tiers (errors ++ [e])
          ((tier, p) :: rest.1, rest.2)
      | none => ([(tier, p)], valueAccepted task inputs r)

/-- The worker of a task. -/
def Setup.work (x : Setup) (f : Tier → Payload → Choice) (task : Task) (inputs : Inputs) :
    List (Tier × Payload) × Option Json :=
  climb x.goal f task inputs (x.policy.workerTiers task x.tiers) []

/-- The value a reference names, given the values of the tasks. -/
def refValue (sources : Dict Str Str) (env : Str → Option Json) (ref : Str) : Option Json :=
  match ref.split1 '.' with
  | [kind, key] => if kind = "sources".toList then (sources.get? key).map Json.str else env key
  | _ => none

/-- The inputs references name, given the values of the tasks. -/
def inputsFrom (sources : Dict Str Str) (env : Str → Option Json) :
    List Str → Inputs → Option Inputs
  | [], inputs => some inputs
  | ref :: refs, inputs =>
      (refValue sources env ref).bind fun v => inputsFrom sources env refs (inputs.set ref v)

/-- The meaning of a task: what its worker comes to on the inputs its references name. -/
def taskRule (x : Setup) (f : Tier → Payload → Choice) (p : Plan) (id : Str)
    (env : Str → Option Json) : Option Json :=
  (p.tasks.find? (·.id = id)).bind fun task =>
    (inputsFrom x.sources env task.inputRefs .empty).bind fun inputs => (x.work f task inputs).2

/-- The value a plan gives a task. -/
abbrev Plan.Gives (p : Plan) (x : Setup) (f : Tier → Payload → Choice) : Str → Json → Prop :=
  Dataflow.Computes (Plan.Needs p.tasks) (taskRule x f p)

/-! ## Runs of a provider -/

/-- Every work call that is not cancelled ends as the provider has it end. -/
def answering (f : Tier → Payload → Choice) : Permit := fun tier p r =>
  p.operation = .work → r = .error cancelledError ∨ ∃ k, r = endOf .work k (f tier p)

/-- A call, as the provider is asked for it. -/
def Call.ask (c : Call) : Tier × Payload := (c.record.tier, c.payload)

theorem Call.failure_eq {c : Call} {r : Except Exc Json} (h : c.ended = some r) :
    c.failure task inputs = failureOf task inputs r := by
  cases r with
  | error e => simp [Call.failure, failureOf, h]
  | ok v =>
      cases hv : validateResult task.resultType v inputs <;> simp [Call.failure, failureOf, h, hv]

/-- Which call it was does not matter. -/
theorem failureOf_endOf (m : Choice) (k : ℕ) :
    failureOf task inputs (endOf .work k m) = failureOf task inputs (endOf .work 0 m) := by
  cases m with
  | reply r =>
      cases r with
      | none => rfl
      | some r =>
          simp only [endOf]
          split <;> rfl
  | _ => rfl

theorem valueAccepted_endOf (m : Choice) (k : ℕ) :
    valueAccepted task inputs (endOf .work k m) = valueAccepted task inputs (endOf .work 0 m) := by
  cases m with
  | reply r =>
      cases r with
      | none => rfl
      | some r =>
          simp only [endOf]
          split <;> rfl
  | _ => rfl

/-- What came out of a work call that was not cancelled is what the provider has for it. -/
theorem Call.ends_as (task : Task) (inputs : Inputs) {c : Call} {r : Except Exc Json}
    (hperm : c.Permitted (answering f)) (hop : c.payload.operation = .work)
    (hend : c.ended = some r) (hr : r ≠ .error cancelledError) :
    failureOf task inputs r = failureOf task inputs (endOf .work 0 (f c.record.tier c.payload)) ∧
      valueAccepted task inputs r =
        valueAccepted task inputs (endOf .work 0 (f c.record.tier c.payload)) := by
  rcases hperm r hend hop with h | ⟨k, rfl⟩
  · exact absurd h hr
  · exact ⟨failureOf_endOf _ k, valueAccepted_endOf _ k⟩

/-- An attempt that counts as failed was not cancelled. -/
theorem Call.ended_of_failure {c : Call} {e : Str} (h : c.failure task inputs = some e) :
    ∃ r, c.ended = some r ∧ r ≠ .error cancelledError ∧ failureOf task inputs r = some e := by
  cases hend : c.ended with
  | none => simp [Call.failure, hend] at h
  | some r =>
      rw [c.failure_eq hend] at h
      refine ⟨r, rfl, ?_, h⟩
      rintro rfl
      cases h

/-! ## Ladders -/

section Ladder
variable {cs : List Call} {c : Call}

/-- The calls of a ladder ask for what the worker by itself asks for. -/
theorem Ladder.ask_eq (h : Ladder x task inputs cs) {i : ℕ} (hi : cs[i]? = some c) :
    c.payload = .work task inputs x.goal ((failures task inputs (cs.take i)).length + 1)
      (failures task inputs (cs.take i)) := by
  obtain ⟨errors, hpay, hlen, -⟩ := h.errors hi
  have heq := h.payload i c hi
  obtain rfl : errors = failures task inputs (cs.take i) := by
    rw [hpay] at heq
    exact (Payload.work.inj heq).2.2.2.2
  rw [hlen]
  exact heq

theorem Ladder.drop_eq (h : Ladder x task inputs cs) {i : ℕ} (hi : cs[i]? = some c) :
    (x.policy.workerTiers task x.tiers).drop i =
      c.record.tier :: (x.policy.workerTiers task x.tiers).drop (i + 1) := by
  obtain ⟨hlt, htier⟩ := List.getElem?_eq_some_iff.mp (h.tier i c hi)
  rw [List.drop_eq_getElem_cons hlt, htier]

/-- The part of the worker's calls that failed. By induction on their number. -/
theorem Ladder.climb_failed (h : Ladder x task inputs cs)
    (hperm : ∀ c ∈ cs, c.Permitted (answering f)) {n : ℕ} (hn : n ≤ cs.length)
    (hfailed : ∀ c ∈ cs.take n, (c.failure task inputs).isSome) :
    x.work f task inputs =
      ((cs.take n).map Call.ask ++ (climb x.goal f task inputs
          ((x.policy.workerTiers task x.tiers).drop n) (failures task inputs (cs.take n))).1,
        (climb x.goal f task inputs ((x.policy.workerTiers task x.tiers).drop n)
          (failures task inputs (cs.take n))).2) := by
  induction n with
  | zero => simp [Setup.work, failures]
  | succ n ih =>
      have hlt : n < cs.length := hn
      have hc := List.getElem?_eq_getElem hlt
      have htake : cs.take (n + 1) = cs.take n ++ [cs[n]] := by simp
      rw [htake] at hfailed ⊢
      rw [ih (by omega) fun c hc => hfailed c (List.mem_append_left _ hc)]
      obtain ⟨e, he⟩ := Option.isSome_iff_exists.mp
        (hfailed cs[n] (List.mem_append_right _ (List.mem_singleton_self _)))
      obtain ⟨r, hend, hr, hfail⟩ := Call.ended_of_failure he
      have hpay := h.ask_eq hc
      have hwork : cs[n].payload.operation = .work := by rw [hpay]; rfl
      have hends := (Call.ends_as task inputs (hperm _ (List.getElem_mem hlt)) hwork hend hr).1
      rw [hfail, hpay] at hends
      rw [h.drop_eq hc, climb]
      simp only [← hends]
      rw [failures_append _ _ _ he, List.map_append, List.append_assoc, List.map_singleton,
        List.singleton_append, Call.ask, hpay]

/-- The last call of the worker. -/
theorem Ladder.climb_last (h : Ladder x task inputs cs)
    (hperm : ∀ c ∈ cs, c.Permitted (answering f))
    (hlast : cs.getLast? = some c) {r : Except Exc Json} (hend : c.ended = some r)
    (hr : r ≠ .error cancelledError) (hfail : failureOf task inputs r = none) :
    x.work f task inputs = (cs.map Call.ask, valueAccepted task inputs r) := by
  obtain ⟨init, rfl⟩ := List.getLast?_eq_some_iff.mp hlast
  have hc : (init ++ [c])[init.length]? = some c := by simp
  have htake : (init ++ [c]).take init.length = init := by simp
  have hfailed : ∀ d ∈ init, (d.failure task inputs).isSome := by
    intro d hd
    obtain ⟨i, hi⟩ := List.mem_iff_getElem?.mp hd
    have hlt := (List.getElem?_eq_some_iff.mp hi).1
    refine h.failed i d ?_ (by simp; omega)
    rw [List.getElem?_append_left hlt, hi]
  rw [h.climb_failed hperm (n := init.length) (by simp) (by rwa [htake]), htake]
  have hpay := h.ask_eq hc
  rw [htake] at hpay
  have hwork : c.payload.operation = .work := by rw [hpay]; rfl
  obtain ⟨hends, hval⟩ := Call.ends_as task inputs (hperm c (by simp)) hwork hend hr
  rw [hfail, hpay] at hends
  rw [hpay] at hval
  rw [h.drop_eq hc, climb]
  simp only [← hends, ← hval]
  rw [List.map_append, List.map_singleton, Call.ask, hpay]

/-- The calls a worker has made so far are the first ones of the worker by itself. -/
theorem Ladder.climb_prefix (h : Ladder x task inputs cs)
    (hperm : ∀ c ∈ cs, c.Permitted (answering f)) :
    cs.map Call.ask <+: (x.work f task inputs).1 := by
  rcases List.eq_nil_or_concat cs with rfl | ⟨init, c, rfl⟩
  · exact List.nil_prefix
  · rw [List.concat_eq_append] at h hperm ⊢
    have hc : (init ++ [c])[init.length]? = some c := by simp
    have htake : (init ++ [c]).take init.length = init := by simp
    have hfailed : ∀ d ∈ init, (d.failure task inputs).isSome := by
      intro d hd
      obtain ⟨i, hi⟩ := List.mem_iff_getElem?.mp hd
      have hlt := (List.getElem?_eq_some_iff.mp hi).1
      refine h.failed i d ?_ (by simp; omega)
      rw [List.getElem?_append_left hlt, hi]
    rw [h.climb_failed hperm (n := init.length) (by simp) (by rwa [htake]), htake]
    have hpay := h.ask_eq hc
    rw [htake] at hpay
    have hask : Call.ask c = (c.record.tier, .work task inputs x.goal
      ((failures task inputs init).length + 1) (failures task inputs init)) := by
      rw [Call.ask, hpay]
    rw [List.map_append, List.map_singleton, hask, h.drop_eq hc, climb]
    refine (List.prefix_append_right_inj _).mpr ?_
    simp only
    split
    · exact List.prefix_append _ _
    · exact List.prefix_rfl

/-- A worker that tried every tier in vain accepts nothing. -/
theorem Ladder.climb_exhausted (h : Ladder x task inputs cs)
    (hperm : ∀ c ∈ cs, c.Permitted (answering f))
    (hlen : cs.length = (x.policy.workerTiers task x.tiers).length)
    (hfailed : ∀ c ∈ cs, (c.failure task inputs).isSome) : (x.work f task inputs).2 = none := by
  rw [h.climb_failed hperm le_rfl (by rwa [List.take_length])]
  simp only [hlen, List.drop_length, climb]

end Ladder

/-! ## Rules -/

theorem refValue_eq (sources : Dict Str Str) (results : Dict Str Json) (ref : Str) :
    refValue sources results.get? ref = (resolveRef sources results ref).toOption := by
  unfold refValue resolveRef
  generalize ref.split1 '.' = parts
  rcases parts with - | ⟨kind, - | ⟨key, - | ⟨-, -⟩⟩⟩
  · rfl
  · rfl
  · by_cases hkind : kind = "sources".toList
    · simp only [if_pos hkind]
      cases sources.get? key <;> rfl
    · simp only [if_neg hkind]
      cases results.get? key <;> rfl
  · rfl

/-- The inputs a run resolves are those the values of the tasks give. -/
theorem inputsFrom_eq (sources : Dict Str Str) (results : Dict Str Json) (refs : List Str)
    (start : Inputs) :
    inputsFrom sources results.get? refs start =
      (resolveInputs sources results refs start).toOption := by
  induction refs generalizing start with
  | nil => rfl
  | cons ref refs ih =>
      rw [inputsFrom, resolveInputs, refValue_eq]
      cases resolveRef sources results ref with
      | error e => rfl
      | ok v => exact ih _

theorem refValue_congr {sources : Dict Str Str} {env env' : Str → Option Json} {ref : Str}
    (href : Plan.refOk sources.keys task ref = true)
    (henv : ∀ key ∈ task.dependsOn, env key = env' key) :
    refValue sources env ref = refValue sources env' ref := by
  have hne : "results".toList ≠ "sources".toList := by decide
  rcases Plan.refOk_iff.mp href with ⟨key, -, rfl | ⟨rfl, -⟩⟩ | ⟨key, hkey, rfl | ⟨rfl, -⟩⟩
  · rw [refValue, refValue, (split1_eq_pair_iff (by decide)).mpr rfl]
    simp
  · rfl
  · rw [refValue, refValue, (split1_eq_pair_iff (by decide)).mpr rfl]
    simp only [if_neg hne, henv key hkey]
  · rfl

theorem inputsFrom_congr {sources : Dict Str Str} {env env' : Str → Option Json} {refs : List Str}
    (start : Inputs) (h : ∀ ref ∈ refs, refValue sources env ref = refValue sources env' ref) :
    inputsFrom sources env refs start = inputsFrom sources env' refs start := by
  induction refs generalizing start with
  | nil => rfl
  | cons ref refs ih =>
      rw [List.forall_mem_cons] at h
      rw [inputsFrom, inputsFrom, h.1]
      exact Option.bind_congr fun v _ => ih _ h.2

/-- The meaning of a task depends on the tasks it declares to depend on only. -/
theorem local_taskRule {value : Json}
    (hp : Plan.parse value x.sources.keys x.limits.maxTasks x.tiers = .ok p) :
    Dataflow.Local (Plan.Needs p.tasks) (taskRule x f p) := by
  intro id env env' henv
  have hacc := Plan.accepted_of_parse hp
  unfold taskRule
  refine Option.bind_congr fun task hfind => ?_
  have ht := List.mem_of_find?_eq_some hfind
  obtain rfl : task.id = id := by simpa using List.find?_some hfind
  rw [inputsFrom_congr .empty fun ref href => refValue_congr (hacc.refs task ht ref href)
    fun key hkey => henv key ⟨task, ht, rfl, hkey⟩]

theorem taskRule_eq (hids : (p.tasks.map Task.id).Nodup) (ht : task ∈ p.tasks)
    (hi : l.inputsOf x task = .ok inputs) :
    taskRule x f p task.id l.results.get? = (x.work f task inputs).2 := by
  have hfind : p.tasks.find? (·.id = task.id) = some task := by
    cases hfind : p.tasks.find? (·.id = task.id) with
    | none =>
        rw [List.find?_eq_none] at hfind
        exact absurd (decide_eq_true rfl) (hfind task ht)
    | some u =>
        have hid : u.id = task.id := by simpa using List.find?_some hfind
        rw [List.inj_on_of_nodup_map hids (List.mem_of_find?_eq_some hfind) ht hid]
  have hinputs : resolveInputs x.sources l.results task.inputRefs .empty = .ok inputs := hi
  rw [taskRule, hfind, Option.bind_some, inputsFrom_eq, hinputs]
  rfl

/-! ## States -/

/-- What the results, the failures and the calls of a run are, given what its plan means. -/
structure Carried (x : Setup) (f : Tier → Payload → Choice) (p : Plan) (l : Ledger) : Prop where
  results : ∀ id v, l.results.get? id = some v → p.Gives x f id v
  /-- A task whose worker failed, but for a cancellation or the budget, has no value. -/
  failed : ∀ job ∈ l.jobs, ∀ e, job.outcome = some (.error e) → e ≠ cancelledError →
    e.cls ≠ .budget → ∀ v, ¬ p.Gives x f job.task.id v
  /-- The calls for a task are the first ones of its worker by itself, and all of them once
  it has a result. -/
  calls : ∀ t ∈ p.tasks, workCalls l t = [] ∧ t.id ∉ l.results.keys ∨
    ∃ inputs, l.inputsOf x t = .ok inputs ∧
      (workCalls l t).map Call.ask <+: (x.work f t inputs).1 ∧
        (t.id ∈ l.results.keys → (workCalls l t).map Call.ask = (x.work f t inputs).1)
  returned : ∀ r, l.outcome = some (.ok r) → ∀ t ∈ p.tasks,
    ∃ v, r.results.get? t.id = some v ∧ p.Gives x f t.id v

section States
variable {n : ℕ} {job : Job}

theorem Ledger.Ok.mine_permitted (h : l.Ok x permit) (i : Thread) :
    ∀ c ∈ l.mine i, c.Permitted permit :=
  fun c hc => h.calls.permitted c (List.mem_filter.mp hc).1

/-- The ladder of a worker with resolved inputs. -/
theorem JobOk.ladder_of (h : JobOk x l n job) (hi : l.inputsOf x job.task = .ok inputs) :
    Ladder x job.task inputs (l.mine (.job n)) := by
  rcases h.ladder with hnil | ⟨inputs', hi', hladder⟩
  · rw [hnil]
    exact ⟨by simp, by simp, by simp⟩
  · obtain rfl : inputs' = inputs := Except.ok.inj (hi'.symm.trans hi)
    exact hladder

/-- The worker of an accepted result did all it does by itself. -/
theorem Ledger.Ok.work_of_accepted (h : l.Ok x (answering f)) (hj : l.jobs[n]? = some job)
    {v : Json} (hv : l.results.get? job.task.id = some v) :
    ∃ inputs, l.inputsOf x job.task = .ok inputs ∧
      x.work f job.task inputs = ((l.mine (.job n)).map Call.ask, some v) := by
  have hjob := h.jobs n job hj
  obtain ⟨inputs, c, hi, hvalid, hlast, hend⟩ := hjob.accepted v hv
  have hnofail : failureOf job.task inputs (.ok v) = none := by
    simp only [failureOf, hvalid]
  refine ⟨inputs, hi, ?_⟩
  rw [(hjob.ladder_of hi).climb_last (h.mine_permitted _) hlast hend (by simp) hnofail]
  simp [valueAccepted, hvalid]

theorem Ledger.Ok.exists_job (h : l.Ok x permit) (hp : l.plan.isSome) {id : Str}
    (hid : id ∈ l.results.keys) : ∃ (n : ℕ) (job : Job), l.jobs[n]? = some job ∧
      job.task.id = id := by
  obtain ⟨job, hj, hid⟩ := h.plan.keys hp id hid
  obtain ⟨n, hn⟩ := List.mem_iff_getElem?.mp hj
  exact ⟨n, job, hn, hid⟩

theorem isSome_get?_iff {K V : Type} [DecidableEq K] {d : Dict K V} {k : K} :
    (d.get? k).isSome ↔ k ∈ d.keys := by
  rw [Dict.mem_keys_iff, Option.isSome_iff_exists]

/-- The results of a run follow from each other. -/
theorem Ledger.Ok.explains (h : l.Ok x (answering f)) (hp : l.plan = some p) :
    Dataflow.Explains (Plan.Needs p.tasks) (taskRule x f p) l.results.get? where
  closed id v hv d := by
    rintro ⟨t, ht, rfl, hd⟩
    rw [isSome_get?_iff]
    exact (h.tasksSafe hp).closed t ht (Dict.mem_keys_iff.mpr ⟨v, hv⟩) d hd
  follows id v hv := by
    obtain ⟨n, job, hj, rfl⟩ := h.exists_job (by rw [hp]; rfl) (Dict.mem_keys_iff.mpr ⟨v, hv⟩)
    obtain ⟨raw, hraw⟩ := h.plan.accepted p hp
    obtain ⟨inputs, hi, hwork⟩ := h.work_of_accepted hj hv
    rw [taskRule_eq (accepted_of_checkedPlan hraw).ids
      (h.plan.tasks p hp _ (List.mem_of_getElem? hj)) hi, hwork]

/-- The results of a run are the values of the tasks. -/
theorem Ledger.Ok.gives (h : l.Ok x (answering f)) (hp : l.plan = some p) {id : Str} {v : Json}
    (hv : l.results.get? id = some v) : p.Gives x f id v := by
  obtain ⟨raw, hraw⟩ := h.plan.accepted p hp
  refine (h.explains hp).computes (Plan.parse_eq_ok_iff.mp (parse_of_checkedPlan hraw)).acyclic
    ?_ hv
  refine (List.finite_toSet l.results.keys).subset fun id hid => ?_
  exact isSome_get?_iff.mp hid

/-- What the worker of a failed task comes to, by itself: nothing. -/
theorem Ledger.Ok.rule_of_failed (h : l.Ok x (answering f)) (hp : l.plan = some p)
    (hj : l.jobs[n]? = some job) {e : Exc} (he : job.outcome = some (.error e))
    (hcancel : e ≠ cancelledError) (hbudget : e.cls ≠ .budget) :
    taskRule x f p job.task.id l.results.get? = none := by
  have hjob := h.jobs n job hj
  obtain ⟨raw, hraw⟩ := h.plan.accepted p hp
  have hacc := accepted_of_checkedPlan hraw
  have ht := h.plan.tasks p hp _ (List.mem_of_getElem? hj)
  -- the worker ended with a call that was neither accepted nor counted as failed
  have hlast : ∀ inputs c r, l.inputsOf x job.task = .ok inputs →
      (l.mine (.job n)).getLast? = some c → c.ended = some r → r ≠ .error cancelledError →
      failureOf job.task inputs r = none → valueAccepted job.task inputs r = none →
      taskRule x f p job.task.id l.results.get? = none := by
    intro inputs c r hi hc hend hr hfail hval
    rw [taskRule_eq hacc.ids ht hi,
      (hjob.ladder_of hi).climb_last (h.mine_permitted _) hc hend hr hfail, hval]
  cases hjob.failed e he with
  | cancelled heq => exact absurd heq hcancel
  | @call k c hcall hk hc hend hlets =>
      have hmem : c ∈ l.mine (.job n) :=
        List.mem_filter.mpr ⟨List.mem_of_getElem? hk, by simpa using hc⟩
      obtain ⟨inputs, hi, hladder⟩ := hjob.ladder.resolve_left (List.ne_nil_of_mem hmem)
      obtain ⟨attempt, errors, hpay⟩ := hjob.payload_of hi hmem
      rw [hpay] at hlets
      have hrelay : e.isRelayError = false := hlets.resolve_left hbudget
      have hfail : failureOf job.task inputs (.error e) = none := by
        simp [failureOf, hrelay]
      obtain ⟨i, hc⟩ := List.mem_iff_getElem?.mp hmem
      have hlt := (List.getElem?_eq_some_iff.mp hc).1
      have hnext : i + 1 = (l.mine (.job n)).length := by
        by_contra hne
        have := hladder.failed i c hc (by omega)
        rw [c.failure_eq hend, hfail] at this
        cases this
      refine hlast inputs c _ hi ?_ hend (by simpa using hcancel) hfail rfl
      rw [List.getLast?_eq_getElem?, ← hnext]
      exact hc
  | refused hcls => exact absurd hcls hbudget
  | exhausted _ hi hlen hall =>
      rw [taskRule_eq hacc.ids ht hi]
      exact (hjob.ladder_of hi).climb_exhausted (h.mine_permitted _) hlen hall
  | @inputs r hgrow hdeps _ hfail =>
      have henv : ∀ key ∈ job.task.dependsOn, r.get? key = l.results.get? key := by
        intro key hkey
        obtain ⟨v, hv⟩ := Dict.mem_keys_iff.mp (hdeps key hkey)
        rw [hv, hgrow key v hv]
      have hnone : inputsFrom x.sources l.results.get? job.task.inputRefs .empty = none := by
        rw [← inputsFrom_congr .empty fun ref href =>
          refValue_congr (hacc.refs _ ht ref href) henv, inputsFrom_eq, hfail]
        rfl
      unfold taskRule
      cases hfind : p.tasks.find? (·.id = job.task.id) with
      | none => rfl
      | some u =>
          have hid : u.id = job.task.id := by simpa using List.find?_some hfind
          obtain rfl := List.inj_on_of_nodup_map hacc.ids (List.mem_of_find?_eq_some hfind) ht hid
          rw [Option.bind_some, hnone]
          rfl
  | @check inputs c v hi hc hend hcheck hcls =>
      refine hlast inputs c (.ok v) hi hc hend (by simp) ?_ ?_
      · simp only [failureOf, hcheck, if_neg hcls]
      · simp [valueAccepted, hcheck]

theorem Ledger.Ok.carried (h : l.Ok x (answering f)) (hp : l.plan = some p) :
    Carried x f p l where
  results _ _ hv := h.gives hp hv
  failed job hj e he hcancel hbudget v := by
    obtain ⟨n, hn⟩ := List.mem_iff_getElem?.mp hj
    obtain ⟨raw, hraw⟩ := h.plan.accepted p hp
    have hacc := accepted_of_checkedPlan hraw
    have ht := h.plan.tasks p hp _ hj
    refine Dataflow.not_computes (local_taskRule (parse_of_checkedPlan hraw)) (fun d hd => ?_)
      (fun d w _ hw => h.gives hp hw) (h.rule_of_failed hp hn he hcancel hbudget)
    rw [isSome_get?_iff]
    exact (h.jobs n job hn).deps d ((Plan.needs_iff hacc.ids ht).mp hd)
  calls t ht := by
    by_cases hnil : workCalls l t = [] ∧ t.id ∉ l.results.keys
    · exact .inl hnil
    right
    have hjob : ∃ (n : ℕ) (job : Job), l.jobs[n]? = some job ∧ job.task.id = t.id := by
      by_cases hk : t.id ∈ l.results.keys
      · exact h.exists_job (by rw [hp]; rfl) hk
      · obtain ⟨c, hc⟩ := List.exists_mem_of_ne_nil _ fun hc => hnil ⟨hc, hk⟩
        obtain ⟨hc, hid⟩ := List.mem_filter.mp hc
        cases hpay : c.payload with
        | work t' inputs goal attempt errors =>
            obtain ⟨m, job, hj, rfl, -⟩ := h.job_of_work hc hpay
            rw [hpay] at hid
            exact ⟨m, job, hj, by simpa [Payload.taskId] using hid⟩
        | _ =>
            rw [hpay] at hid
            cases hid
    obtain ⟨n, job, hj, hid⟩ := hjob
    obtain ⟨raw, hraw⟩ := h.plan.accepted p hp
    obtain rfl := List.inj_on_of_nodup_map (accepted_of_checkedPlan hraw).ids
      (h.plan.tasks p hp _ (List.mem_of_getElem? hj)) ht hid
    rw [h.workCalls_eq hj]
    by_cases hk : job.task.id ∈ l.results.keys
    · obtain ⟨v, hv⟩ := Dict.mem_keys_iff.mp hk
      obtain ⟨inputs, hi, hwork⟩ := h.work_of_accepted hj hv
      exact ⟨inputs, hi, by rw [hwork], fun _ => by rw [hwork]⟩
    · have hne : l.mine (.job n) ≠ [] := fun hc => hnil ⟨by rw [h.workCalls_eq hj, hc], hk⟩
      obtain ⟨inputs, hi, hladder⟩ := (h.jobs n job hj).ladder.resolve_left hne
      exact ⟨inputs, hi, hladder.climb_prefix (h.mine_permitted _), fun hkey => absurd hkey hk⟩
  returned r hr t ht := by
    have hans := (h.ended _ hr).answered r rfl
    obtain ⟨v, hv⟩ := Dict.mem_keys_iff.mp
      (h.done_of_synthesized hp (hans.synthesized (by rw [hp]; rfl)) t ht)
    exact ⟨v, by rw [hans.results, hv], h.gives hp hv⟩

end States

/-- **The engine computes what the plan means.** In every state reached while the provider
answers work calls as `f` does, every result is the value of its task, a task whose worker
failed for good has none, every worker makes the calls it makes by itself, and a run that
returned has the values of all tasks. -/
theorem plan_computed {c : State} (h : x.system.Reach {} (Admits (answering f)) c)
    (hp : c.shared.plan = some p) : Carried x f p c.shared.toLedger := (ok_of_reach h).carried hp

/-- The provider answers every work call in one way. -/
def fours : Tier → Payload → Choice := fun _ _ => replyWith (workValue "4")

/-- Every work call ends with the answer `4`. -/
def endsFour : Except Exc Json → Bool
  | .ok (.obj [(key, .str s)]) => key = "answer".toList && s = "4".toList
  | _ => false

def onlyFours : Permit := fun _ p r => p.operation = .work → endsFour r = true

instance (tier : Tier) (p : Payload) (r : Except Exc Json) : Decidable (onlyFours tier p r) :=
  inferInstanceAs (Decidable (_ → _))

theorem answering_of_onlyFours (hf : ∀ tier q, endOf .work 0 (f tier q) = .ok (workValue "4"))
    {tier : Tier} {q : Payload} {r : Except Exc Json} (h : onlyFours tier q r) :
    answering f tier q r := by
  intro hop
  have hends := h hop
  right
  unfold endsFour at hends
  split at hends
  · rename_i key s
    obtain ⟨hkey, hs⟩ := Bool.and_eq_true_iff.mp hends
    obtain rfl := of_decide_eq_true hkey
    obtain rfl := of_decide_eq_true hs
    exact ⟨0, (hf tier q).symm⟩
  · cases hends

theorem exists_reach_fours (hf : ∀ tier q, endOf .work 0 (f tier q) = .ok (workValue "4"))
    (ls : List (Label Thread Choice Move)) {q : State → Bool}
    (h : (x.system.checkedSteps (admits fun t p r => onlyFours t p r) (x.system.init {}) ls).any q
      = true) : ∃ c, x.system.Reach {} (Admits (answering f)) c ∧ q c = true := by
  obtain ⟨c, hc, hq⟩ := exists_reach_of_admitted onlyFours ls h
  refine ⟨c, hc.mono fun c l hl => ?_, hq⟩
  intro i m op cont hlabel hpool k d hop hd
  exact answering_of_onlyFours hf (hl i m op cont hlabel hpool k d hop hd)

/-- A plan of two tasks, the second of which depends on the first, carried out. -/
def foursRun : List (Label Thread Choice Move) :=
  planned [taskRow "one" "local" [], taskRow "two" "local" ["one"]] ++
    [.resume (.job 0) .go, .resume (.job 0) .go, .resume (.job 0) (replyWith (workValue "4")),
      .resume .main .go, .resume .main .go, .resume (.job 1) .go, .resume (.job 1) .go,
      .resume (.job 1) (replyWith (workValue "4")), .resume .main .go, .resume .main .go,
      .resume .main (replyWith (.str "done".toList))]

theorem plan_computed_foursRun : ∃ (c : State) (p : Plan), c.shared.plan = some p ∧
    p.tasks.map Task.id = ["one".toList, "two".toList] ∧
      (∃ r, c.shared.outcome = some (.ok r)) ∧ Carried planSetup fours p c.shared.toLedger := by
  obtain ⟨c, hc, h⟩ := exists_reach_fours (x := planSetup) (f := fours) (fun _ _ => rfl) foursRun
    (q := fun c => c.shared.plan.any (fun p => p.tasks.map Task.id =
      ["one".toList, "two".toList]) && c.shared.toLedger.returned fun _ => true)
    (by decide +kernel)
  obtain ⟨hplan, hret⟩ := Bool.and_eq_true_iff.mp h
  obtain ⟨p, hp, hids⟩ := Option.any_eq_true _ _ |>.mp hplan
  obtain ⟨r, hr, -⟩ := Ledger.exists_of_returned hret
  exact ⟨c, p, hp, of_decide_eq_true hids, ⟨r, hr⟩, plan_computed hc hp⟩

/-! ## Two runs -/

/-- The same request to engines with one policy and the same tiers. Who watches the run, the
limits, and what the provider is called may differ. -/
structure SameRequest (x x' : Setup) : Prop where
  goal : x'.goal = x.goal
  sources : x'.sources = x.sources
  policy : x'.policy = x.policy
  tiers : x'.tiers = x.tiers

/-- A value without the model's judgment of its own work. -/
def stripJudgment : Json → Json
  | .obj fields => .obj (fields.filter fun field => !judgmentKeys.contains field.1)
  | v => v

/-- Two answers of a provider that differ in what is kept for people only. -/
inductive Alike : Choice → Choice → Prop
  | refl (m : Choice) : Alike m m
  | reply {r r' : Reply} : r.model.isEmpty = r'.model.isEmpty →
      stripJudgment r.value = stripJudgment r'.value → Alike (.reply (some r)) (.reply (some r'))

theorem splitJudgment_fst (v : Json) : (splitJudgment v).1 = stripJudgment v := by
  unfold splitJudgment
  cases v with
  | obj fields =>
      change (if _ then _ else _ : Json × Option Judgment).1 = _
      split
      · rename_i hnone
        simp only [Bool.not_eq_true', List.any_eq_false, Bool.not_eq_true] at hnone
        rw [stripJudgment, List.filter_eq_self.mpr]
        intro field hfield
        by_contra hmem
        simp only [Bool.not_eq_true', Bool.not_eq_false, List.contains_iff_mem] at hmem
        have hkey := hnone field.1 hmem
        rw [Option.isSome_eq_false_iff, Option.isNone_iff_eq_none, List.lookup_eq_none_iff] at hkey
        simpa using hkey field hfield
      · rfl
  | _ => rfl

/-- Such answers end a work call in the same way. -/
theorem Alike.endOf_eq {m m' : Choice} (h : Alike m m') : endOf .work 0 m = endOf .work 0 m' := by
  cases h with
  | refl => rfl
  | @reply r r' hmodel hvalue =>
      have hopen : (openReply .work r).1 = (openReply .work r').1 := by
        change (splitJudgment r.value).1 = (splitJudgment r'.value).1
        rw [splitJudgment_fst, splitJudgment_fst, hvalue]
      simp only [endOf, hmodel, hopen]

theorem climb_congr (hf : ∀ tier q, q.operation = .work → Alike (f tier q) (f' tier q))
    (goal : Str) (tiers : List Tier) (errors : List Str) :
    climb goal f task inputs tiers errors = climb goal f' task inputs tiers errors := by
  induction tiers generalizing errors with
  | nil => rfl
  | cons tier tiers ih =>
      rw [climb, climb]
      simp only [(hf tier (.work task inputs goal (errors.length + 1) errors) rfl).endOf_eq, ih]

theorem work_congr (hx : SameRequest x x')
    (hf : ∀ tier q, q.operation = .work → Alike (f tier q) (f' tier q)) :
    x.work f task inputs = x'.work f' task inputs := by
  rw [Setup.work, Setup.work, hx.goal, hx.policy, hx.tiers, climb_congr hf]

theorem taskRule_congr (hx : SameRequest x x')
    (hf : ∀ tier q, q.operation = .work → Alike (f tier q) (f' tier q)) :
    taskRule x f p = taskRule x' f' p := by
  funext id env
  simp only [taskRule, hx.sources, work_congr hx hf]

/-- **Two runs of a plan come to the same results**, however their workers interleave,
whoever watches them, and whatever the models say about their own work: tasks that both runs
have a result for have equal results, which came after equal calls. -/
theorem results_determined (hx : SameRequest x x')
    (hf : ∀ tier q, q.operation = .work → Alike (f tier q) (f' tier q)) {c c' : State}
    (h : x.system.Reach {} (Admits (answering f)) c)
    (h' : x'.system.Reach {} (Admits (answering f')) c')
    (hp : c.shared.plan = some p) (hp' : c'.shared.plan = some p) {t : Task} (ht : t ∈ p.tasks)
    (hk : t.id ∈ c.shared.results.keys) (hk' : t.id ∈ c'.shared.results.keys) :
    c'.shared.results.get? t.id = c.shared.results.get? t.id ∧
      (workCalls c'.shared.toLedger t).map Call.ask =
        (workCalls c.shared.toLedger t).map Call.ask := by
  have hok := ok_of_reach h
  obtain ⟨raw, hraw⟩ := hok.plan.accepted p hp
  have hacc := accepted_of_checkedPlan hraw
  have hrun := hok.carried hp
  have hrun' := (ok_of_reach h').carried hp'
  -- both runs compute the values of one program
  have hvalues : ∀ id ∈ c.shared.results.keys, id ∈ c'.shared.results.keys →
      c'.shared.results.get? id = c.shared.results.get? id := by
    intro id hid hid'
    obtain ⟨v, hv⟩ := Dict.mem_keys_iff.mp hid
    obtain ⟨v', hv'⟩ := Dict.mem_keys_iff.mp hid'
    have hgives' : p.Gives x f id v' := by
      have := hrun'.results id v' hv'
      rwa [Plan.Gives, ← taskRule_congr hx hf] at this
    rw [hv, hv', (hrun.results id v hv).unique (local_taskRule (parse_of_checkedPlan hraw)) hgives']
  refine ⟨hvalues t.id hk hk', ?_⟩
  obtain ⟨inputs, hi, -, hcalls⟩ := (hrun.calls t ht).resolve_left fun h => h.2 hk
  obtain ⟨inputs', hi', -, hcalls'⟩ := (hrun'.calls t ht).resolve_left fun h => h.2 hk'
  have hinputs : inputs' = inputs := by
    have hdeps := (hok.tasksSafe hp).closed t ht hk
    have hdeps' := ((ok_of_reach h').tasksSafe hp').closed t ht hk'
    have heq : inputsFrom x.sources c'.shared.results.get? t.inputRefs .empty =
        inputsFrom x.sources c.shared.results.get? t.inputRefs .empty :=
      inputsFrom_congr .empty fun ref href => refValue_congr (hacc.refs t ht ref href)
        fun key hkey => hvalues key (hdeps key hkey) (hdeps' key hkey)
    have hres : resolveInputs x.sources c.shared.results t.inputRefs .empty = .ok inputs := hi
    have hres' : resolveInputs x'.sources c'.shared.results t.inputRefs .empty = .ok inputs' := hi'
    rw [hx.sources] at hres'
    rw [inputsFrom_eq, inputsFrom_eq, hres, hres'] at heq
    exact Option.some.inj heq
  rw [hcalls hk, hcalls' hk', hinputs, work_congr hx hf]

/-- The same answers with a judgment. -/
def sureFours : Tier → Payload → Choice := fun _ _ =>
  replyWith (.obj [("confidence".toList, .str "high".toList), ("answer".toList, .str "4".toList)])

/-- Somebody follows what the models write, and the cloud has less to spend. -/
def watchedSetup : Setup :=
  { planSetup with
    onDelta := true
    provider := { streams := true }
    limits := { planSetup.limits with cloudCalls := 3 } }

/-- Two tasks side by side; the worker of the task `first` comes first. -/
def sideBySide (reply : Choice) (first second : ℕ) : List (Label Thread Choice Move) :=
  planned [taskRow "one" "local" [], taskRow "two" "local" []] ++
    [first, second].flatMap fun n =>
      [.resume (.job n) .go, .resume (.job n) .go, .resume (.job n) reply]

/-- The task of a row that depends on nothing. -/
def freeTask (id : String) : Task where
  id := id.toList
  instruction := "Do it".toList
  preferredTier := .small
  inputRefs := ["sources.a".toList]
  dependsOn := []
  resultType := .taskAnswer
  checks := ResultType.taskAnswer.checks

def sidePlan : Plan := ⟨[freeTask "one", freeTask "two"], "Join them".toList⟩

theorem results_determined_sideBySide : ∃ c c' : State,
    c.shared.results.keys = ["one".toList, "two".toList] ∧
      c'.shared.results.keys = ["two".toList, "one".toList] ∧
      c'.shared.results.get? "one".toList = c.shared.results.get? "one".toList ∧
      (workCalls c'.shared.toLedger (freeTask "one")).map Call.ask =
        (workCalls c.shared.toLedger (freeTask "one")).map Call.ask := by
  obtain ⟨c, hc, h⟩ := exists_reach_fours (x := planSetup) (f := fours) (fun _ _ => rfl)
    (sideBySide (replyWith (workValue "4")) 0 1)
    (q := fun c => c.shared.results.keys = ["one".toList, "two".toList] &&
      c.shared.plan = some sidePlan) (by decide +kernel)
  obtain ⟨c', hc', h'⟩ := exists_reach_fours (x := watchedSetup) (f := sureFours)
    (fun _ _ => rfl) (sideBySide (sureFours .small (.synthesize [] .empty [] .empty)) 1 0)
    (q := fun c => c.shared.results.keys = ["two".toList, "one".toList] &&
      c.shared.plan = some sidePlan) (by decide +kernel)
  obtain ⟨hkeys, hplan⟩ := Bool.and_eq_true_iff.mp h
  obtain ⟨hkeys', hplan'⟩ := Bool.and_eq_true_iff.mp h'
  have hkeys := of_decide_eq_true hkeys
  have hkeys' := of_decide_eq_true hkeys'
  have hsame : SameRequest planSetup watchedSetup := ⟨rfl, rfl, rfl, rfl⟩
  have halike : ∀ tier q, q.operation = .work → Alike (fours tier q) (sureFours tier q) :=
    fun _ _ _ => .reply rfl rfl
  exact ⟨c, c', hkeys, hkeys', results_determined hsame halike hc hc' (of_decide_eq_true hplan)
    (of_decide_eq_true hplan') (List.mem_cons_self ..) (by rw [hkeys]; exact .head _)
    (by rw [hkeys']; exact .tail _ (.head _))⟩

end HorizonRelay
