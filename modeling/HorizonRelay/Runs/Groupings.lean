import HorizonRelay.Runs.Tasks
import HorizonRelay.Satisfiable

/-!
# Accepted groupings

A grouping is checked by a length and two inclusions against ids that earlier tasks
returned.  What these ids are rests on the checks those tasks' results passed: behind each
stands a quote that was found in its source.

## Main definitions

* `Evidence` — an extraction whose quote stands in the source it names.
* `Partition` — the groups hold each of the extractions exactly once.

## Main results

* `groupings_exact` — what accepted groupings are, which values are accepted, and how the
  others are refused.
-/

namespace HorizonRelay

open Py Coop

variable {x : Setup} {permit : Permit} {l : Ledger} {p : Plan} {t u : Task} {inputs : Inputs}
  {v : Json}

/-- A value is an extraction of the report `i`: its quote stands word for word in the source
of that name. -/
def Evidence (x : Setup) (i : Str) (v : Json) : Prop :=
  ∃ quote text, v.get? "report_id".toList = some (.str i) ∧
    v.get? "quote".toList = some (.str quote) ∧ x.sources.get? i = some text ∧
    text.contains quote = true

/-- A grouping of a task's inputs: these are extractions of different reports, and each of
them is in the groups exactly once. -/
def Partition (x : Setup) (l : Ledger) (t : Task) (v : Json) : Prop :=
  ∃ groups inputs id, GroupsOf v groups ∧ l.inputsOf x t = .ok inputs ∧
    (∀ e ∈ inputs.entries, Evidence x (id e.1) e.2) ∧ (inputs.keys.map id).Nodup ∧
    groups.flatten.Perm (inputs.keys.map id)

/-! ## Errors of the check -/

/-- The ids of the inputs can all be put in a set. -/
def Hashable (inputs : Inputs) : Prop :=
  ∀ v ∈ inputs.values, ∀ w, v.get? "report_id".toList = some w → w.hashKey.isSome

theorem refusal_expectedReports (h : Hashable inputs) :
    Raises Refusal (expectedReports inputs) := by
  intro e he
  unfold expectedReports at he
  simp only at he
  split at he
  · cases he
  · rename_i hnone
    exfalso
    obtain ⟨ks, hks⟩ : ∃ ks, (inputs.values.filterMap fun v =>
        v.get? "report_id".toList).mapM Json.hashKey = some ks := by
      refine exists_mapM_eq_some.mpr fun w hw => ?_
      obtain ⟨v, hv, hw⟩ := List.mem_filterMap.mp hw
      exact h v hv w hw
    rw [hks] at hnone
    cases hnone

theorem refusal_groupIds (g : Json) : Raises Refusal (groupIds g) := by
  unfold groupIds
  repeat' split
  all_goals first
    | exact raises_ok _
    | exact (raises_error _).mpr ⟨_, rfl⟩

/-- On inputs whose ids are texts a check raises nothing but a `ValidationError`. -/
theorem refusal_validateResult (h : Hashable inputs) (kind : ResultType) (v : Json) :
    Raises Refusal (validateResult kind v inputs) := by
  unfold validateResult
  split
  · exact (raises_error _).mpr ⟨_, rfl⟩
  · split
    · unfold taskAnswer
      simp only
      repeat' split
      all_goals first
        | exact raises_ok _
        | exact (raises_error _).mpr ⟨_, rfl⟩
    · unfold reportExtraction
      repeat' split
      all_goals first
        | exact raises_ok _
        | exact (raises_error _).mpr ⟨_, rfl⟩
    · unfold reportGroups
      split
      · exact (raises_error _).mpr ⟨_, rfl⟩
      · split
        · refine (refusal_expectedReports h).bind fun expected => ?_
          split
          · exact (raises_error _).mpr ⟨_, rfl⟩
          · refine (Raises.mapM refusal_groupIds _).bind fun groups => ?_
            simp only
            split
            · exact (raises_error _).mpr ⟨_, rfl⟩
            · exact raises_ok _
        · exact (raises_error _).mpr ⟨_, rfl⟩

/-! ## What the inputs are -/

/-- The dependencies of a task whose result is there have results that passed their
checks. -/
theorem TasksSafe.done (h : TasksSafe x p l) {ds : List Str} (hds : ∀ d ∈ ds, d ∈ l.results.keys) :
    ∀ d ∈ ds, ∃ u ∈ p.tasks, u.id = d ∧ Done x.sources l.results u := by
  intro d hd
  obtain ⟨v, hv⟩ := Dict.mem_keys_iff.mp (hds d hd)
  obtain ⟨u, hu, rfl, inputs, hi, hok, -⟩ := h.valid d v hv
  exact ⟨u, hu, rfl, v, inputs, hv, hi, hok⟩

/-- An input with a report id is an extraction, and its quote stands in the source. -/
theorem TasksSafe.evidence (h : TasksSafe x p l) {value : Json}
    (hp : Plan.parse value x.sources.keys x.limits.maxTasks x.tiers = .ok p) (ht : t ∈ p.tasks)
    (hi : l.inputsOf x t = .ok inputs) {e : Str × Json} (he : e ∈ inputs.entries) {w : Json}
    (hw : e.2.get? "report_id".toList = some w) : ∃ i, w = .str i ∧ Evidence x i e.2 := by
  obtain ⟨_, _, hrow⟩ := (Plan.parse_eq_ok_iff.mp hp).exists_row ht
  obtain ⟨hkeys, hrefs⟩ := resolveInputs_spec hi hrow.inputRefs.2.1.2
  have hmem : e.1 ∈ t.inputRefs := hkeys ▸ List.mem_map_of_mem he
  have hget : inputs.get? e.1 = some e.2 := Dict.mem_entries_iff.mp he
  obtain ⟨v, hv, hget'⟩ := hrefs e.1 hmem
  obtain rfl := Option.some.inj (hget'.symm.trans hget)
  have href := (Plan.accepted_of_parse hp).refs t ht e.1 hmem
  rcases ((resolveRef_eq_ok_iff href).mp hv).1 with ⟨key, text, -, -, hsrc⟩ | ⟨key, -, -, hres⟩
  · rw [hsrc] at hw
    cases hw
  · obtain ⟨u, hu, rfl, inputs', hi', hok, -⟩ := h.valid key _ hres
    rw [resultType_of_report hok hw] at hok
    obtain ⟨i, quote, text, hid, hquote, htext, -, -, hin⟩ := reportExtraction_spec hok
    obtain rfl := Option.some.inj (hw.symm.trans hid)
    refine ⟨i, rfl, quote, text, hid, hquote, ?_, hin⟩
    -- the quoted text is the one of the source: the extraction's own inputs were resolved too
    have hdone := h.done (h.closed u hu (Dict.mem_keys_iff.mpr ⟨_, hres⟩))
    obtain ⟨hkeys', hfrom⟩ := inputFrom_of_resolved hp hu hdone hi'
    have hmem' : sourcesPrefix ++ i ∈ u.inputRefs := hkeys' ▸ Dict.mem_keys_iff.mpr ⟨_, htext⟩
    obtain ⟨v', hv', hsrc⟩ := hfrom _ hmem'
    obtain rfl := Option.some.inj (hv'.symm.trans htext)
    cases hsrc with
    | source hkey hsrc hstr =>
        obtain rfl := List.append_cancel_left hkey
        rw [hsrc, Json.str.inj hstr]
    | result _ hkey _ _ => exact absurd hkey sourcesPrefix_ne_resultsPrefix

theorem TasksSafe.hashable (h : TasksSafe x p l) {value : Json}
    (hp : Plan.parse value x.sources.keys x.limits.maxTasks x.tiers = .ok p) (ht : t ∈ p.tasks)
    (hi : l.inputsOf x t = .ok inputs) : Hashable inputs := by
  intro v hv w hw
  obtain ⟨e, he, rfl⟩ := List.mem_map.mp hv
  obtain ⟨i, rfl, -⟩ := h.evidence hp ht hi he hw
  rfl

/-- An accepted grouping is a partition of its inputs. -/
theorem TasksSafe.partition (h : TasksSafe x p l) {value : Json}
    (hp : Plan.parse value x.sources.keys x.limits.maxTasks x.tiers = .ok p) (ht : t ∈ p.tasks)
    (hi : l.inputsOf x t = .ok inputs)
    (hv : validateResult .reportGroups v inputs = .ok ()) : Partition x l t v := by
  obtain ⟨groups, id, hgroups, hid, hnodup, hperm⟩ := reportGroups_ok_iff.mp hv
  refine ⟨groups, inputs, id, hgroups, hi, fun e he => ?_, hnodup, hperm⟩
  obtain ⟨i, heq, hev⟩ := h.evidence hp ht hi he (hid e he)
  rwa [Json.str.inj heq]

/-- The inputs a worker shows its model are those its task's references name. -/
theorem Ledger.Ok.inputs_of_work (h : l.Ok x permit) {c : Call} (hc : c ∈ l.calls) {goal : Str}
    {n : ℕ} {errors : List Str} (hpay : c.payload = .work t inputs goal n errors) :
    l.inputsOf x t = .ok inputs := by
  obtain ⟨m, job, hj, rfl, hth⟩ := h.job_of_work hc hpay
  have hmine : c ∈ l.mine (.job m) := List.mem_filter.mpr ⟨hc, by simpa using hth⟩
  rcases (h.jobs m job hj).ladder with hnil | ⟨inputs', hi, hl⟩
  · rw [hnil] at hmine
    cases hmine
  · obtain ⟨k, hk⟩ := List.mem_iff_getElem?.mp hmine
    have := hl.payload k c hk
    rw [hpay] at this
    cases this
    exact hi

/-- **Groupings are partitions of verified evidence.** In every reachable state with an
accepted plan an accepted grouping holds each of the extractions it reads exactly once, and
behind each stands a quote found in its source. Whatever a worker's model returns is accepted
or refused with a `ValidationError`, and every partition of reports with ids of their own is
accepted. -/
theorem groupings_exact {c : State} (h : x.Reachable c) (hp : c.shared.plan = some p) :
    (∀ t ∈ p.tasks, t.resultType = .reportGroups → ∀ v,
      c.shared.results.get? t.id = some v → Partition x c.shared.toLedger t v) ∧
    ∀ d ∈ c.shared.calls, ∀ t inputs goal n errors, d.payload = .work t inputs goal n errors →
      ∀ v,
        (validateResult t.resultType v inputs = .ok () ∨
          ∃ msg, validateResult t.resultType v inputs = .error (validationError msg)) ∧
        (t.resultType = .reportGroups → ∀ groups id, GroupsOf v groups → Reports inputs id →
          (inputs.keys.map id).Nodup → groups.flatten.Perm (inputs.keys.map id) →
          validateResult t.resultType v inputs = .ok ()) := by
  have hsafe := h.ok.tasksSafe hp
  obtain ⟨raw, hraw⟩ := h.ok.plan.accepted p hp
  have hparse := parse_of_checkedPlan hraw
  refine ⟨fun t ht hk v hv => ?_, fun d hd t inputs goal n errors hpay v => ⟨?_, ?_⟩⟩
  · obtain ⟨u, hu, hid, inputs, hi, hok, -⟩ := hsafe.valid t.id v hv
    obtain rfl := List.inj_on_of_nodup_map (Plan.accepted_of_parse hparse).ids hu ht hid
    rw [hk] at hok
    exact hsafe.partition hparse ht hi hok
  · have hi := h.ok.inputs_of_work hd hpay
    have ht := (hsafe.called d hd t inputs goal n errors hpay).1
    have hraises := refusal_validateResult (hsafe.hashable hparse ht hi) t.resultType v
    cases hr : validateResult t.resultType v inputs with
    | ok _ => exact .inl rfl
    | error e =>
        obtain ⟨msg, rfl⟩ := hraises e hr
        exact .inr ⟨msg, rfl⟩
  · intro hk groups id hgroups hid hnodup hperm
    rw [hk]
    exact reportGroups_ok_iff.mpr ⟨groups, id, hgroups, hid, hnodup, hperm⟩

/-! ## A run to look at -/

/-- A request with two reports. -/
def reportsSetup : Setup :=
  { planSetup with
    sources := Dict.ofList [("a".toList, "text".toList), ("b".toList, "letter".toList)] }

/-- Both reports are read, and what was found is grouped. -/
def reportsPlan : Plan :=
  ⟨[kindTask "one" ["sources.a"] [] .reportExtraction,
    kindTask "two" ["sources.b"] [] .reportExtraction,
    kindTask "three" ["results.one", "results.two"] ["one", "two"] .reportGroups],
    "Join them".toList⟩

/-- What was found in the second report. -/
def extractedLetter : Json :=
  .obj [("report_id".toList, .str "b".toList), ("quote".toList, .str "let".toList)]

/-- Each report in a group of its own. -/
def grouped : Json :=
  .obj [("groups".toList,
    .arr [.obj (reportGroup ["b".toList]), .obj (reportGroup ["a".toList])])]

/-- Two extractions, then a grouping of them. -/
def groupedRun : List (Label Thread Choice Move) :=
  planned [readingRow "one" ["sources.a"] [] .reportExtraction,
    readingRow "two" ["sources.b"] [] .reportExtraction,
    readingRow "three" ["results.one", "results.two"] ["one", "two"] .reportGroups] ++
    [.resume (.job 1) .go, .resume (.job 0) .go, .resume (.job 0) .go, .resume (.job 1) .go,
      .resume (.job 1) (replyWith extractedLetter), .resume (.job 0) (replyWith extracted),
      .resume .main .go, .resume .main .go, .resume (.job 2) .go, .resume (.job 2) .go,
      .resume (.job 2) (replyWith grouped), .resume .main .go]

theorem groupings_exact_groupedRun : ∃ (c : State) (t : Task) (v : Json),
    t.resultType = .reportGroups ∧ t.inputRefs.length = 2 ∧
      c.shared.results.get? t.id = some v ∧ Partition reportsSetup c.shared.toLedger t v := by
  obtain ⟨c, hc, hq⟩ := System.exists_reach_of_steps (S := reportsSetup.system) (s := {})
    groupedRun (p := fun c => c.shared.plan = some reportsPlan &&
      (c.shared.results.get? "three".toList).isSome)
    (by decide +kernel)
  simp only [Bool.and_eq_true, decide_eq_true_eq] at hq
  obtain ⟨v, hv⟩ := Option.isSome_iff_exists.mp hq.2
  exact ⟨c, kindTask "three" ["results.one", "results.two"] ["one", "two"] .reportGroups, v, rfl,
    rfl, hv, (groupings_exact hc hq.1).1 _ (by simp [reportsPlan]) rfl v hv⟩

end HorizonRelay
