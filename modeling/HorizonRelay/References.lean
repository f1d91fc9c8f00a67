import HorizonRelay.Engine.Sound
import HorizonRelay.WellFormed

/-!
# Input references

A reference is read twice: the plan's reader checks it with `partition`, and the worker
splits it with `split`.  The two agree unless the reference is the bare name `sources`,
which the reader takes for the source with the empty name and the worker cannot split.

## Main definitions

* `Denotes` — the value an accepted reference was checked to stand for.

## Main results

* `resolveRef_eq_ok_iff`, `resolveInputs_spec` — what the worker looks up.
* `inputs_resolve` — the references of an accepted task can all be resolved, to what they
  were checked to stand for, unless one is the bare name `sources`.
* `bare_source_unresolved` — an accepted plan with such a reference.
-/

namespace HorizonRelay

open Py

variable {sources : Dict Str Str} {results : Dict Str Json} {task : Task} {ref : Str} {v : Json}

/-- What a reference of a task stands for: a source, or the result of a declared
dependency. -/
def Denotes (sources : Dict Str Str) (results : Dict Str Json) (task : Task) (ref : Str)
    (v : Json) : Prop :=
  (∃ key text, Plan.Refers ref "sources".toList key ∧ sources.get? key = some text ∧
    v = .str text) ∨
  ∃ key ∈ task.dependsOn, Plan.Refers ref "results".toList key ∧ results.get? key = some v

/-! ## One reference -/

/-- `split` cuts a reference at its first dot. -/
theorem split1_eq_pair_iff {kind key : Str} (hkind : '.' ∉ kind) :
    ref.split1 '.' = [kind, key] ↔ ref = kind ++ '.' :: key := by
  constructor
  · intro h
    unfold Str.split1 at h
    split at h
    · cases h
    · rename_i before after hp
      cases h
      have hdot := (Str.partition_found ref '.').mp (by rw [hp])
      have href : Plan.Refers ref kind key := (Plan.partition_eq_iff hkind).mp (by simp [hp])
      exact href.resolve_right fun h => hkind (h.1 ▸ hdot)
  · rintro rfl
    have href : Plan.Refers (kind ++ '.' :: key) kind key := .inl rfl
    obtain ⟨hb, ha⟩ := (Plan.partition_eq_iff hkind).mpr href
    have hf := (Str.partition_found (kind ++ '.' :: key) '.').mpr (by simp)
    unfold Str.split1
    split
    · rename_i hp
      rw [hp] at hf
      cases hf
    · rename_i hp
      rw [hp] at ha hb
      rw [← ha, ← hb]

/-- What the worker finds for a reference of an accepted task. -/
theorem resolveRef_eq_ok_iff (href : Plan.refOk sources.keys task ref = true) :
    resolveRef sources results ref = .ok v ↔ Denotes sources results task ref v ∧ '.' ∈ ref := by
  have hne : "results".toList ≠ "sources".toList := by decide
  constructor
  · intro h
    rcases Plan.refOk_iff.mp href with ⟨key, hkey, rfl | ⟨rfl, -⟩⟩ | ⟨key, hkey, rfl | ⟨rfl, -⟩⟩
    · refine ⟨.inl ?_, by simp⟩
      rw [resolveRef, (split1_eq_pair_iff (by decide)).mpr rfl] at h
      simp only [if_true] at h
      obtain ⟨text, htext⟩ := Dict.mem_keys_iff.mp hkey
      rw [htext] at h
      cases h
      exact ⟨key, text, .inl rfl, htext, rfl⟩
    · cases h
    · refine ⟨.inr ⟨key, hkey, .inl rfl, ?_⟩, by simp⟩
      rw [resolveRef, (split1_eq_pair_iff (by decide)).mpr rfl] at h
      simp only [if_neg hne] at h
      cases hr : results.get? key with
      | none =>
          rw [hr] at h
          cases h
      | some w =>
          rw [hr] at h
          cases h
          rfl
    · cases h
  · rintro ⟨⟨key, text, rfl | ⟨rfl, -⟩, htext, rfl⟩ | ⟨key, -, rfl | ⟨rfl, -⟩, hv⟩, hdot⟩
    · rw [resolveRef, (split1_eq_pair_iff (by decide)).mpr rfl]
      simp only [if_true, htext, Option.map_some]
    · exact absurd hdot (by decide)
    · rw [resolveRef, (split1_eq_pair_iff (by decide)).mpr rfl]
      simp only [if_neg hne, hv]
    · exact absurd hdot (by decide)

/-- A reference of an accepted task stands for something once the dependencies are done. -/
theorem exists_denotes (href : Plan.refOk sources.keys task ref = true)
    (hdeps : ∀ d ∈ task.dependsOn, d ∈ results.keys) :
    ∃ v, Denotes sources results task ref v := by
  rcases Plan.refOk_iff.mp href with ⟨key, hkey, h⟩ | ⟨key, hkey, h⟩
  · obtain ⟨text, htext⟩ := Dict.mem_keys_iff.mp hkey
    exact ⟨.str text, .inl ⟨key, text, h, htext, rfl⟩⟩
  · obtain ⟨v, hv⟩ := Dict.mem_keys_iff.mp (hdeps key hkey)
    exact ⟨v, .inr ⟨key, hkey, h, hv⟩⟩

/-- A reference of an accepted task can be resolved if it has a dot. -/
theorem resolveRef_ok_iff (href : Plan.refOk sources.keys task ref = true)
    (hdeps : ∀ d ∈ task.dependsOn, d ∈ results.keys) :
    (∃ v, resolveRef sources results ref = .ok v) ↔ '.' ∈ ref := by
  obtain ⟨v, hv⟩ := exists_denotes href hdeps
  constructor
  · rintro ⟨w, hw⟩
    exact ((resolveRef_eq_ok_iff href).mp hw).2
  · exact fun hdot => ⟨v, (resolveRef_eq_ok_iff href).mpr ⟨hv, hdot⟩⟩

/-! ## All references of a task -/

/-- Inputs are resolved when each reference is. -/
theorem resolveInputs_ok_iff {refs : List Str} (start : Inputs) :
    (∃ inputs, resolveInputs sources results refs start = .ok inputs) ↔
      ∀ ref ∈ refs, ∃ v, resolveRef sources results ref = .ok v := by
  induction refs generalizing start with
  | nil => simp [resolveInputs]
  | cons ref refs ih =>
      unfold resolveInputs
      cases hv : resolveRef sources results ref with
      | error e => simp [hv, bind, Except.bind]
      | ok v =>
          have := ih (start.set ref v)
          simpa [hv, bind, Except.bind] using this

theorem resolveInputs_from {refs : List Str} {start inputs : Inputs}
    (h : resolveInputs sources results refs start = .ok inputs)
    (hnodup : (start.keys ++ refs).Nodup) :
    inputs.keys = start.keys ++ refs ∧ (∀ k ∈ start.keys, inputs.get? k = start.get? k) ∧
      ∀ ref ∈ refs, ∃ v, resolveRef sources results ref = .ok v ∧ inputs.get? ref = some v := by
  induction refs generalizing start with
  | nil =>
      cases h
      simp
  | cons ref refs ih =>
      unfold resolveInputs at h
      obtain ⟨v, hv, h⟩ := bind_eq_ok.mp h
      have hnew : ref ∉ start.keys := fun hmem =>
        List.disjoint_of_nodup_append hnodup hmem (by simp)
      have hkeys := Dict.keys_set_of_not_mem (v := v) hnew
      obtain ⟨hall, hold, hrefs⟩ := ih h (by rw [hkeys]; simpa using hnodup)
      rw [hkeys, List.append_assoc, List.singleton_append] at hall
      refine ⟨hall, fun k hk => ?_, fun k hk => ?_⟩
      · rw [hold k (Dict.mem_keys_set.mpr (.inr hk)), Dict.get?_set, if_neg]
        rintro rfl
        exact hnew hk
      · rcases List.mem_cons.mp hk with rfl | hk
        · refine ⟨v, hv, ?_⟩
          rw [hold k (Dict.mem_keys_set.mpr (.inl rfl)), Dict.get?_set_self]
        · exact hrefs k hk

/-- The inputs of a task are its references, each with what the worker found for it. -/
theorem resolveInputs_spec {refs : List Str} {inputs : Inputs}
    (h : resolveInputs sources results refs .empty = .ok inputs) (hnodup : refs.Nodup) :
    inputs.keys = refs ∧
      ∀ ref ∈ refs, ∃ v, resolveRef sources results ref = .ok v ∧ inputs.get? ref = some v := by
  obtain ⟨hkeys, -, hrefs⟩ := resolveInputs_from h (by simpa [Dict.keys, Dict.empty] using hnodup)
  exact ⟨hkeys, hrefs⟩

/-- The only accepted reference without a dot is the name of the sources. -/
theorem dot_mem_iff {value : Json} {maxTasks : ℕ} {tiers : List Tier} {plan : Plan}
    (h : plan.WellFormed value sources.keys maxTasks tiers) (ht : task ∈ plan.tasks)
    (href : ref ∈ task.inputRefs) : '.' ∈ ref ↔ ref ≠ "sources".toList := by
  constructor
  · rintro hdot rfl
    exact absurd hdot (by decide)
  · intro hne
    rcases h.refs task ht ref href with ⟨key, -, rfl | ⟨h, -⟩⟩ | ⟨key, hkey, rfl | ⟨-, rfl⟩⟩
    · simp
    · exact absurd h hne
    · simp
    · obtain ⟨other, hother, hid, -⟩ := h.dependsOn task ht [] hkey
      obtain ⟨_, _, hrow⟩ := h.exists_row hother
      obtain ⟨c, rest, hcons, -⟩ := hrow.id.2
      rw [hid] at hcons
      cases hcons

/-- **Accepted references resolve**: once the dependencies of an accepted task are done, the
worker finds for each reference what it was checked to stand for, exactly when no reference
is the bare name of the sources. -/
theorem inputs_resolve {x : Setup} {value : Json} {plan : Plan}
    (hp : Plan.parse value x.sources.keys x.limits.maxTasks x.tiers = .ok plan)
    (ht : task ∈ plan.tasks) (hdeps : ∀ d ∈ task.dependsOn, d ∈ results.keys) :
    (∃ inputs, resolveInputs x.sources results task.inputRefs .empty = .ok inputs ∧
      inputs.keys = task.inputRefs ∧ ∀ ref ∈ task.inputRefs, ∃ v, inputs.get? ref = some v ∧
        Denotes x.sources results task ref v) ↔ "sources".toList ∉ task.inputRefs := by
  have hwf := Plan.parse_eq_ok_iff.mp hp
  have hok := (Plan.accepted_of_parse hp).refs task ht
  constructor
  · rintro ⟨inputs, hi, -⟩ hbare
    obtain ⟨v, hv⟩ := (resolveInputs_ok_iff _).mp ⟨inputs, hi⟩ _ hbare
    exact absurd ((resolveRef_eq_ok_iff (hok _ hbare)).mp hv).2 (by decide)
  · intro hbare
    obtain ⟨inputs, hi⟩ := (resolveInputs_ok_iff .empty).mpr fun ref href =>
      (resolveRef_ok_iff (hok ref href) hdeps).mpr
        ((dot_mem_iff hwf ht href).mpr fun h => hbare (h ▸ href))
    obtain ⟨_, _, hrow⟩ := hwf.exists_row ht
    obtain ⟨hkeys, hrefs⟩ := resolveInputs_spec hi hrow.inputRefs.2.1.2
    refine ⟨inputs, hi, hkeys, fun ref href => ?_⟩
    obtain ⟨v, hv, hget⟩ := hrefs ref href
    exact ⟨v, hget, ((resolveRef_eq_ok_iff (hok ref href)).mp hv).1⟩

/-- A planner's row with given inputs and a given kind of result. -/
def readingRow (id : String) (refs deps : List String) (kind : ResultType) : Json :=
  .obj [("id".toList, .str id.toList), ("instruction".toList, .str "Read it".toList),
    ("preferred_tier".toList, .str "local".toList),
    ("input_refs".toList, .arr (refs.map fun r => .str r.toList)),
    ("depends_on".toList, .arr (deps.map fun d => .str d.toList)),
    ("result_type".toList, .str kind.name), ("checks".toList, .arr (kind.checks.map Json.str))]

/-- A request with one source, of the given name. -/
def namedSetup (name : String) : Setup :=
  { planSetup with sources := Dict.ofList [(name.toList, "text".toList)] }

/-- A task that reads the source with the empty name. -/
def unnamedTask (ref : String) : Task where
  id := "one".toList
  instruction := "Read it".toList
  preferredTier := .small
  inputRefs := [ref.toList]
  dependsOn := []
  resultType := .taskAnswer
  checks := ResultType.taskAnswer.checks

/-- The plan of that task. -/
def unnamedPlan (ref : String) : Plan := ⟨[unnamedTask ref], "Join them".toList⟩

theorem inputs_resolve_unnamed : ∃ inputs,
    resolveInputs (namedSetup "").sources .empty ["sources.".toList] .empty = .ok inputs ∧
      inputs.keys = ["sources.".toList] ∧ ∀ ref ∈ ["sources.".toList], ∃ v,
        inputs.get? ref = some v ∧
          Denotes (namedSetup "").sources .empty (unnamedTask "sources.") ref v := by
  have hp : Plan.parse (planReply [readingRow "one" ["sources."] [] .taskAnswer])
      (namedSetup "").sources.keys (namedSetup "").limits.maxTasks (namedSetup "").tiers =
        .ok (unnamedPlan "sources.") := by decide +kernel
  have ht : unnamedTask "sources." ∈ (unnamedPlan "sources.").tasks := List.mem_singleton.mpr rfl
  exact (inputs_resolve hp ht (by decide)).mpr (by decide +kernel)

/-- The bare name of the sources is accepted for the source with the empty name, and no
worker can split it. -/
theorem bare_source_unresolved : (namedSetup "").requestOk = true ∧
    Plan.parse (planReply [readingRow "one" ["sources"] [] .taskAnswer])
      (namedSetup "").sources.keys (namedSetup "").limits.maxTasks (namedSetup "").tiers =
        .ok (unnamedPlan "sources") ∧
    ∀ results, resolveInputs (namedSetup "").sources results (unnamedTask "sources").inputRefs
      .empty = .error (pyError "ValueError".toList) :=
  ⟨by decide +kernel, by decide +kernel, fun _ => rfl⟩

end HorizonRelay
