import HorizonRelay.References

/-!
# Which tasks can be done at all

The plan's reader does not compare the kind of result a task asks for with the inputs it
reads.  Whether any value a worker may return passes its check depends on both: an
extraction needs one source to quote, a grouping needs extractions of different sources,
and a free answer needs nothing.

## Main definitions

* `Task.sourceRefs`, `Fits` — the inputs that suit the kind of result of a task.
* `Done` — a task has a result that passed its check.

## Main results

* `satisfiable_iff` — some value passes the check of a task exactly when its inputs fit.
* `grouping_unsatisfiable` — an accepted plan with a task no worker can do.
-/

namespace HorizonRelay

open Py

variable {inputs : Inputs} {v : Json}

/-! ## The checks -/

/-- Some text can always be answered. -/
theorem exists_taskAnswer (inputs : Inputs) :
    ∃ v, validateResult .taskAnswer v inputs = .ok () :=
  ⟨.obj [("answer".toList, .str "x".toList)], by rfl⟩

/-- A value with one field only has no other. -/
theorem get?_eq_none {keys : List Str} {k : Str} (h : v.HasFields keys) (hk : k ∉ keys) :
    v.get? k = none := by
  obtain ⟨fields, rfl, hfields⟩ := h
  have hno : k ∉ fields.map Prod.fst := fun hmem => hk ((hfields k).mp hmem)
  change fields.lookup k = none
  rw [List.lookup_eq_none_iff]
  intro p hp
  have hne : k ≠ p.1 := fun h => hno (h ▸ List.mem_map_of_mem hp)
  simpa using hne

theorem hasFields_of_taskAnswer (h : validateResult .taskAnswer v inputs = .ok ()) :
    v.HasFields ["answer".toList] := by
  unfold validateResult taskAnswer at h
  split at h
  · cases h
  · rename_i fields hobj
    simp only at h
    split at h
    · cases h
    · rename_i hkeys
      exact ⟨fields, Json.obj?_eq_some.mp hobj, Json.hasKeys_iff.mp (by simpa using hkeys)⟩

theorem hasFields_of_reportGroups (h : validateResult .reportGroups v inputs = .ok ()) :
    v.HasFields ["groups".toList] := by
  unfold validateResult reportGroups at h
  split at h
  · cases h
  · rename_i fields hobj
    simp only at h
    split at h
    · cases h
    · rename_i hkeys
      exact ⟨fields, Json.obj?_eq_some.mp hobj, Json.hasKeys_iff.mp (by simpa using hkeys)⟩

/-- What an accepted extraction says. -/
theorem reportExtraction_spec (h : validateResult .reportExtraction v inputs = .ok ()) :
    ∃ id quote text, v.get? "report_id".toList = some (.str id) ∧
      v.get? "quote".toList = some (.str quote) ∧
      inputs.get? (sourcesPrefix ++ id) = some (.str text) ∧
      inputs.keys.filter sourcesPrefix.isPrefixOf = [sourcesPrefix ++ id] ∧
      quote.strip ≠ [] ∧ text.contains quote = true := by
  unfold validateResult reportExtraction at h
  split at h
  · cases h
  · rename_i fields hobj
    obtain rfl := Json.obj?_eq_some.mp hobj
    simp only at h
    split at h
    · cases h
    · split at h
      · rename_i id quote hid hquote
        split at h
        · cases h
        · rename_i hblank
          split at h
          · cases h
          · rename_i text htext
            split at h
            · cases h
            · rename_i hin
              split at h
              · cases h
              · rename_i hrefs
                obtain ⟨w, hw, htext⟩ := Option.bind_eq_some_iff.mp htext
                obtain ⟨w', hw', hid⟩ := Option.bind_eq_some_iff.mp hid
                obtain ⟨u, hu, hquote⟩ := Option.bind_eq_some_iff.mp hquote
                rw [Json.str?_eq_some.mp htext] at hw
                rw [Json.str?_eq_some.mp hid] at hw'
                rw [Json.str?_eq_some.mp hquote] at hu
                exact ⟨id, quote, text, hw', hu, hw, not_not.mp hrefs, by simpa using hblank,
                  by simpa using hin⟩
      · cases h

/-- An extraction can be accepted when the inputs hold one source, which is not blank. -/
theorem exists_reportExtraction_iff :
    (∃ v, validateResult .reportExtraction v inputs = .ok ()) ↔
      ∃ id text, inputs.get? (sourcesPrefix ++ id) = some (.str text) ∧
        inputs.keys.filter sourcesPrefix.isPrefixOf = [sourcesPrefix ++ id] ∧
        text.strip ≠ [] := by
  constructor
  · rintro ⟨v, hv⟩
    obtain ⟨id, quote, text, -, -, htext, hkeys, hblank, hin⟩ := reportExtraction_spec hv
    refine ⟨id, text, htext, hkeys, fun hstrip => hblank ?_⟩
    rw [Str.strip_eq_nil_iff] at hstrip ⊢
    exact fun c hc => hstrip c (Str.subset_of_contains hin hc)
  · rintro ⟨id, text, htext, hkeys, hblank⟩
    refine ⟨.obj [("report_id".toList, .str id), ("quote".toList, .str text)], ?_⟩
    have hid : ([("report_id".toList, Json.str id), ("quote".toList, .str text)] :
        List (Str × Json)).lookup "report_id".toList = some (.str id) := rfl
    have hquote : ([("report_id".toList, Json.str id), ("quote".toList, .str text)] :
        List (Str × Json)).lookup "quote".toList = some (.str text) := rfl
    have hfields : Json.hasKeys [("report_id".toList, Json.str id), ("quote".toList, .str text)]
        ["report_id".toList, "quote".toList] = true := rfl
    have hempty : text.strip.isEmpty = false := by simpa using hblank
    simp only [validateResult, Json.obj?, reportExtraction, hfields, Bool.not_true,
      Bool.false_eq_true, if_false, hid, hquote, Option.bind_some, Json.str?, hempty, htext,
      Str.contains_self, hkeys, ne_eq, not_true_eq_false]

/-! ## Groupings -/

/-- The ids of the reports, when each input is a report whose id is a text. -/
theorem hashes_of_ids {id : Str → Str}
    (h : ∀ e ∈ inputs.entries, e.2.get? "report_id".toList = some (.str (id e.1))) :
    (inputs.values.filterMap fun v => v.get? "report_id".toList).mapM Json.hashKey =
      some ((inputs.keys.map id).map HashKey.str) := by
  have hvalues : inputs.values.filterMap (fun v => v.get? "report_id".toList) =
      (inputs.keys.map id).map Json.str := by
    unfold Dict.values Dict.keys
    rw [List.filterMap_map, List.map_map, List.map_map]
    refine Eq.trans (List.filterMap_congr fun e he => ?_) (congrFun List.filterMap_eq_map _)
    exact h e he
  rw [hvalues, List.mapM_map]
  exact List.mapM_pure (m := Option)

theorem nodup_hashes_iff {id : Str → Str} :
    ((inputs.keys.map id).map HashKey.str).Nodup ↔
      ∀ k ∈ inputs.keys, ∀ k' ∈ inputs.keys, id k = id k' → k = k' := by
  rw [List.nodup_map_iff fun _ _ h => HashKey.str.inj h]
  exact ⟨fun h k hk k' hk' => List.inj_on_of_nodup_map h hk hk',
    fun h => inputs.nodup_keys.map_on h⟩

theorem eq_str_of_hashKey {w : Json} {i : Str} (h : w.hashKey = some (.str i)) : w = .str i := by
  cases w with
  | str s =>
      cases h
      rfl
  | float x => cases x <;> cases h
  | _ => cases h

/-- The expected reports are as many as the inputs only if each input is a report with an id
of its own. -/
theorem ids_of_expectedReports {expected : List HashKey}
    (h : expectedReports inputs = .ok expected) (hlen : expected.length = inputs.keys.length)
    (hstr : ∀ k ∈ expected, ∃ i, k = .str i) :
    ∃ id : Str → Str,
      (∀ e ∈ inputs.entries, e.2.get? "report_id".toList = some (.str (id e.1))) ∧
      ∀ k ∈ inputs.keys, ∀ k' ∈ inputs.keys, id k = id k' → k = k' := by
  unfold expectedReports at h
  simp only at h
  split at h
  · rename_i hashes hh
    cases h
    have hmap := mapM_eq_some_iff.mp hh
    have hle : (inputs.values.filterMap fun v => v.get? "report_id".toList).length ≤
        inputs.values.length := List.length_filterMap_le _ _
    have heq : (inputs.values.filterMap fun v => v.get? "report_id".toList).length =
        hashes.length := by
      have := congrArg List.length hmap
      rwa [List.length_map, List.length_map] at this
    have hvals : inputs.values.length = inputs.keys.length := by
      simp [Dict.values, Dict.keys]
    have hded := (List.dedup_sublist hashes).length_le
    have hall := List.filterMap_length_eq_length.mp (by omega :
      (inputs.values.filterMap fun v => v.get? "report_id".toList).length =
        inputs.values.length)
    have hnodup : hashes.Nodup :=
      List.dedup_eq_self.mp ((List.dedup_sublist hashes).eq_of_length (by omega))
    let id (k : Str) : Str :=
      ((inputs.get? k).bind fun v => (v.get? "report_id".toList).bind Json.str?).getD []
    have hid : ∀ e ∈ inputs.entries,
        e.2.get? "report_id".toList = some (.str (id e.1)) := by
      intro e he
      obtain ⟨w, hw⟩ := Option.isSome_iff_exists.mp
        (hall e.2 (List.mem_map_of_mem (f := Prod.snd) he))
      have hmem : w.hashKey ∈ hashes.map some := by
        rw [← hmap]
        exact List.mem_map_of_mem
          (List.mem_filterMap.mpr ⟨e.2, List.mem_map_of_mem (f := Prod.snd) he, hw⟩)
      obtain ⟨k, hk, hkw⟩ := List.mem_map.mp hmem
      obtain ⟨i, rfl⟩ := hstr k (List.mem_dedup.mpr hk)
      obtain rfl := eq_str_of_hashKey hkw.symm
      have hget : inputs.get? e.1 = some e.2 := Dict.mem_entries_iff.mp he
      have hi : id e.1 = i := by
        change ((inputs.get? e.1).bind fun v =>
          (v.get? "report_id".toList).bind Json.str?).getD [] = i
        rw [hget, Option.bind_some, hw]
        rfl
      rw [hw, hi]
    refine ⟨id, hid, nodup_hashes_iff.mp ?_⟩
    rw [hashes_of_ids hid] at hh
    rw [Option.some.inj hh]
    exact hnodup
  · cases h

/-- The fields of one group of all reports. -/
def reportGroup (ids : List Str) : List (Str × Json) :=
  [("label".toList, .str "x".toList), ("report_ids".toList, .arr (ids.map .str))]

theorem groupIds_reportGroup {ids : List Str} (h : ids ≠ []) :
    groupIds (.obj (reportGroup ids)) = .ok ids := by
  obtain ⟨i, is, rfl⟩ := List.exists_cons_of_ne_nil h
  have hkeys : Json.hasKeys (reportGroup (i :: is)) ["label".toList, "report_ids".toList] = true :=
    rfl
  have hlabel : ((reportGroup (i :: is)).lookup "label".toList).bind Json.str? =
      some "x".toList := rfl
  have hids : (((reportGroup (i :: is)).lookup "report_ids".toList).bind Json.arr?).bind
      Json.strs? = some (i :: is) := Json.strs?_eq_some.mpr rfl
  simp only [groupIds, Json.obj?, hkeys, hlabel, hids, Bool.not_true, Bool.false_eq_true, if_false]
  exact if_neg (by decide)

/-- A value is one group, of the reports with these ids. -/
structure GroupIs (g : Json) (ids : List Str) : Prop where
  fields : g.HasFields ["label".toList, "report_ids".toList]
  label : ∃ label, g.get? "label".toList = some (.str label) ∧ 1 ≤ label.length ∧
    label.length ≤ 300
  reports : g.get? "report_ids".toList = some (.arr (ids.map .str))
  nonempty : ids ≠ []

theorem groupIds_eq_ok_iff {g : Json} {ids : List Str} : groupIds g = .ok ids ↔ GroupIs g ids := by
  constructor
  · intro h
    unfold groupIds at h
    split at h
    · cases h
    · rename_i fields hobj
      obtain rfl := Json.obj?_eq_some.mp hobj
      split at h
      · cases h
      · rename_i hkeys
        split at h
        · cases h
        · rename_i label hlabel
          split at h
          · cases h
          · rename_i hlen
            split at h
            · rename_i i is hids
              cases h
              obtain ⟨w, hw, hlabel⟩ := Option.bind_eq_some_iff.mp hlabel
              obtain ⟨items, hitems, hstrs⟩ := Option.bind_eq_some_iff.mp hids
              obtain ⟨u, hu, hitems⟩ := Option.bind_eq_some_iff.mp hitems
              rw [Json.str?_eq_some.mp hlabel] at hw
              rw [Json.arr?_eq_some.mp hitems, Json.strs?_eq_some.mp hstrs] at hu
              exact
                { fields := ⟨fields, rfl, Json.hasKeys_iff.mp (by simpa using hkeys)⟩
                  label := ⟨label, hw, not_not.mp hlen⟩
                  reports := hu
                  nonempty := by simp }
            · cases h
  · rintro ⟨⟨fields, rfl, hkeys⟩, ⟨label, hlabel, hlen⟩, hids, hne⟩
    have hlabel : fields.lookup "label".toList = some (.str label) := hlabel
    have hids : fields.lookup "report_ids".toList = some (.arr (ids.map .str)) := hids
    obtain ⟨i, is, rfl⟩ := List.exists_cons_of_ne_nil hne
    have hstrs : Json.strs? ((i :: is).map Json.str) = some (i :: is) := Json.strs?_eq_some.mpr rfl
    unfold groupIds
    simp only [Json.obj?, Json.hasKeys_iff.mpr hkeys, Bool.not_true, Bool.false_eq_true, if_false,
      hlabel, hids, Option.bind_some, Json.str?, Json.arr?, hstrs]
    rw [if_neg (not_not.mpr hlen)]

/-- A value is a list of groups, of the reports with these ids. -/
structure GroupsOf (v : Json) (groups : List (List Str)) : Prop where
  fields : v.HasFields ["groups".toList]
  rows : ∃ gs, v.get? "groups".toList = some (.arr gs) ∧ List.Forall₂ GroupIs gs groups
  nonempty : groups ≠ []

/-- The inputs are reports with these ids. -/
def Reports (inputs : Inputs) (id : Str → Str) : Prop :=
  ∀ e ∈ inputs.entries, e.2.get? "report_id".toList = some (.str (id e.1))

theorem nodup_reports_iff {id : Str → Str} : (inputs.keys.map id).Nodup ↔
    ∀ k ∈ inputs.keys, ∀ k' ∈ inputs.keys, id k = id k' → k = k' :=
  ⟨fun h _ hk _ hk' => List.inj_on_of_nodup_map h hk hk', fun h => inputs.nodup_keys.map_on h⟩

theorem expectedReports_of_reports {id : Str → Str} (h : Reports inputs id)
    (hnodup : (inputs.keys.map id).Nodup) :
    expectedReports inputs = .ok ((inputs.keys.map id).map HashKey.str) := by
  have hhashes : ((inputs.keys.map id).map HashKey.str).Nodup :=
    (List.nodup_map_iff fun _ _ h => HashKey.str.inj h).mpr hnodup
  unfold expectedReports
  simp only [hashes_of_ids h, List.dedup_eq_self.mpr hhashes]

/-- The length and the two inclusions say that every report is there exactly once. -/
theorem once_iff {ids actual : List Str} (hnodup : ids.Nodup) :
    (actual.length = ids.length ∧ (∀ i ∈ actual, i ∈ ids) ∧ ∀ i ∈ ids, i ∈ actual) ↔
      actual.Perm ids := by
  constructor
  · rintro ⟨hlen, -, hsub⟩
    exact ((hnodup.subperm hsub).perm_of_length_le hlen.le).symm
  · intro h
    exact ⟨h.length_eq, fun i hi => h.subset hi, fun i hi => h.symm.subset hi⟩

/-- **Groupings.** A value is accepted as a grouping exactly when the inputs are reports with
ids of their own, and each of these is in the groups exactly once. -/
theorem reportGroups_ok_iff : validateResult .reportGroups v inputs = .ok () ↔
    ∃ groups id, GroupsOf v groups ∧ Reports inputs id ∧ (inputs.keys.map id).Nodup ∧
      groups.flatten.Perm (inputs.keys.map id) := by
  constructor
  · intro h
    unfold validateResult reportGroups at h
    split at h
    · cases h
    · rename_i fields hobj
      obtain rfl := Json.obj?_eq_some.mp hobj
      simp only at h
      split at h
      · cases h
      · rename_i hkeys
        split at h
        · rename_i g gs hgs
          obtain ⟨expected, hexp, h⟩ := bind_eq_ok.mp h
          split at h
          · cases h
          · rename_i hlen
            obtain ⟨groups, hgroups, h⟩ := bind_eq_ok.mp h
            split at h
            · cases h
            · rename_i hactual
              simp only [Bool.or_eq_true, not_or, List.isEmpty_iff, decide_eq_true_eq,
                Bool.not_eq_true', Bool.not_eq_false, List.all_eq_true, List.any_eq_true,
                not_not, List.contains_iff_mem] at hlen hactual
              obtain ⟨id, hid, hinj⟩ := ids_of_expectedReports hexp hlen.2 fun k hk => by
                obtain ⟨i, -, hi⟩ := hactual.2 k hk
                exact ⟨i, by simpa using hi⟩
              have hnodup := nodup_reports_iff.mpr hinj
              obtain rfl := Except.ok.inj (hexp.symm.trans (expectedReports_of_reports hid hnodup))
              obtain ⟨w, hw, hgs⟩ := Option.bind_eq_some_iff.mp hgs
              rw [Json.arr?_eq_some.mp hgs] at hw
              have hgroups := (Plan.mapM_eq_ok_iff.mp hgroups).imp fun _ _ => groupIds_eq_ok_iff.mp
              refine ⟨groups, id, ⟨⟨fields, rfl, Json.hasKeys_iff.mp (by simpa using hkeys)⟩,
                ⟨_, hw, hgroups⟩, ?_⟩, hid, hnodup, (once_iff hnodup).mp ⟨?_, ?_, ?_⟩⟩
              · rintro rfl
                cases hgroups
              · rw [hactual.1.1, List.length_map]
              · intro i hi
                obtain ⟨j, hj, hij⟩ := List.mem_map.mp (hactual.1.2 i hi)
                exact HashKey.str.inj hij ▸ hj
              · intro i hi
                obtain ⟨j, hj, hij⟩ := hactual.2 _ (List.mem_map_of_mem hi)
                have hij : HashKey.str i = .str j := by simpa using hij
                exact HashKey.str.inj hij ▸ hj
        · cases h
  · rintro ⟨groups, id, ⟨⟨fields, rfl, hkeys⟩, ⟨gs, hgs, hgroups⟩, hne⟩, hid, hnodup, hperm⟩
    have hgs : fields.lookup "groups".toList = some (.arr gs) := hgs
    have hids := Plan.mapM_eq_ok_iff.mpr (hgroups.imp fun _ _ => groupIds_eq_ok_iff.mpr)
    obtain ⟨hlen, hsub, hsup⟩ := (once_iff hnodup).mpr hperm
    have hsome : inputs.keys ≠ [] := by
      intro hnil
      rw [hnil, List.map_nil, List.perm_nil, List.flatten_eq_nil_iff] at hperm
      obtain ⟨ids, hmem⟩ := List.exists_mem_of_ne_nil _ hne
      obtain ⟨n, hn, rfl⟩ := List.getElem_of_mem hmem
      exact (hgroups.get (by rw [hgroups.length_eq]; exact hn) hn).nonempty (hperm _ hmem)
    cases hgroups with
    | nil => exact absurd rfl hne
    | cons hg hrest =>
        simp only [validateResult, Json.obj?, reportGroups, Json.hasKeys_iff.mpr hkeys,
          Bool.not_true, Bool.false_eq_true, if_false, hgs, Option.bind_some, Json.arr?,
          expectedReports_of_reports hid hnodup, hids]
        simp only [bind, Except.bind, pure, Except.pure]
        rw [if_neg (by simp [hsome]), if_neg]
        simp only [Bool.or_eq_true, not_or]
        refine ⟨⟨by simpa using hlen, ?_⟩, ?_⟩
        · rw [Bool.not_eq_true', Bool.not_eq_false, List.all_eq_true]
          intro i hi
          exact List.contains_iff_mem.mpr (List.mem_map_of_mem (hsub i hi))
        · rw [Bool.not_eq_true', Bool.not_eq_false, List.all_eq_true]
          intro k hk
          obtain ⟨i, hi, rfl⟩ := List.mem_map.mp hk
          exact List.any_eq_true.mpr ⟨i, hsup i hi, by simp⟩

/-- A grouping can be accepted when there is an input, and each input is a report with an id
of its own. -/
theorem exists_reportGroups_iff :
    (∃ v, validateResult .reportGroups v inputs = .ok ()) ↔
      inputs.keys ≠ [] ∧ ∃ id : Str → Str, Reports inputs id ∧
        ∀ k ∈ inputs.keys, ∀ k' ∈ inputs.keys, id k = id k' → k = k' := by
  simp only [reportGroups_ok_iff, nodup_reports_iff]
  constructor
  · rintro ⟨v, groups, id, hv, hid, hinj, hperm⟩
    refine ⟨fun hnil => ?_, id, hid, hinj⟩
    obtain ⟨gs, -, hgroups⟩ := hv.rows
    rw [hnil, List.map_nil, List.perm_nil, List.flatten_eq_nil_iff] at hperm
    obtain ⟨ids, hmem⟩ := List.exists_mem_of_ne_nil _ hv.nonempty
    obtain ⟨n, hn, rfl⟩ := List.getElem_of_mem hmem
    exact (hgroups.get (by rw [hgroups.length_eq]; exact hn) hn).nonempty (hperm _ hmem)
  · rintro ⟨hne, id, hid, hinj⟩
    -- one group of all reports
    have hne' : inputs.keys.map id ≠ [] := fun h => hne (List.map_eq_nil_iff.mp h)
    refine ⟨.obj [("groups".toList, .arr [.obj (reportGroup (inputs.keys.map id))])],
      [inputs.keys.map id], id, ⟨⟨_, rfl, by simp⟩, ⟨_, rfl, .cons ?_ .nil⟩, by simp⟩, hid, hinj,
      by simp⟩
    exact groupIds_eq_ok_iff.mp (groupIds_reportGroup hne')

/-! ## Tasks -/

/-- The references of a task to the sources. -/
def Task.sourceRefs (t : Task) : List Str := t.inputRefs.filter sourcesPrefix.isPrefixOf

/-- `"results."`. -/
def resultsPrefix : Str := "results.".toList

/-- A task has a result that passed its own check, on its own inputs. -/
def Done (sources : Dict Str Str) (results : Dict Str Json) (t : Task) : Prop :=
  ∃ v inputs, results.get? t.id = some v ∧
    resolveInputs sources results t.inputRefs .empty = .ok inputs ∧
    validateResult t.resultType v inputs = .ok ()

/-- The inputs of a task suit the kind of its result: an extraction reads one source, and its
text is not blank; a grouping reads results of extractions only, each of another source. -/
def Fits (sources : Dict Str Str) (p : Plan) (t : Task) : Prop :=
  match t.resultType with
  | .taskAnswer => True
  | .reportExtraction => ∃ key text, t.sourceRefs = [sourcesPrefix ++ key] ∧
      sources.get? key = some text ∧ text.strip ≠ []
  | .reportGroups =>
      (∀ ref ∈ t.inputRefs, ∃ d ∈ p.tasks, ref = resultsPrefix ++ d.id ∧
        d.resultType = .reportExtraction) ∧
      ∀ d ∈ p.tasks, ∀ d' ∈ p.tasks, resultsPrefix ++ d.id ∈ t.inputRefs →
        resultsPrefix ++ d'.id ∈ t.inputRefs → d.sourceRefs = d'.sourceRefs → d = d'

/-- What an input of an accepted task is: the text of a source, or a result that passed its
check. -/
inductive InputFrom (sources : Dict Str Str) (p : Plan) (ref : Str) (v : Json) : Prop
  | source {key text : Str} (href : ref = sourcesPrefix ++ key)
      (htext : sources.get? key = some text) (hv : v = .str text)
  | result {u : Task} {inputs : Inputs} (hu : u ∈ p.tasks) (href : ref = resultsPrefix ++ u.id)
      (hkeys : inputs.keys = u.inputRefs)
      (hv : validateResult u.resultType v inputs = .ok ())

section Tasks
variable {x : Setup} {value : Json} {p : Plan} {results : Dict Str Json} {t u u' : Task}
  {ref : Str}

theorem sourcesPrefix_ne_resultsPrefix {a b : Str} :
    sourcesPrefix ++ a ≠ resultsPrefix ++ b := by
  intro h
  have h : some 's' = some 'r' := congrArg List.head? h
  cases h

/-- The inputs of a task are its references, whose values come from where they name. -/
theorem inputFrom_of_resolved
    (hp : Plan.parse value x.sources.keys x.limits.maxTasks x.tiers = .ok p) (ht : t ∈ p.tasks)
    (hdeps : ∀ d ∈ t.dependsOn, ∃ u ∈ p.tasks, u.id = d ∧ Done x.sources results u)
    (hi : resolveInputs x.sources results t.inputRefs .empty = .ok inputs) :
    inputs.keys = t.inputRefs ∧
      ∀ ref ∈ t.inputRefs, ∃ v, inputs.get? ref = some v ∧ InputFrom x.sources p ref v := by
  have hwf := Plan.parse_eq_ok_iff.mp hp
  have hnodup : ∀ t ∈ p.tasks, t.inputRefs.Nodup := by
    intro t ht
    obtain ⟨_, _, hrow⟩ := hwf.exists_row ht
    exact hrow.inputRefs.2.1.2
  obtain ⟨hkeys, hrefs⟩ := resolveInputs_spec hi (hnodup t ht)
  refine ⟨hkeys, fun ref href => ?_⟩
  obtain ⟨v, hv, hget⟩ := hrefs ref href
  have hok := (Plan.accepted_of_parse hp).refs t ht ref href
  obtain ⟨hden, hdot⟩ := (resolveRef_eq_ok_iff hok).mp hv
  refine ⟨v, hget, ?_⟩
  rcases hden with ⟨key, text, rfl | ⟨rfl, -⟩, htext, rfl⟩ | ⟨key, hkey, rfl | ⟨rfl, -⟩, hres⟩
  · exact .source rfl htext rfl
  · exact absurd hdot (by decide)
  · obtain ⟨u, hu, rfl, w, inputs', hw, hi', hok'⟩ := hdeps key hkey
    obtain rfl := Option.some.inj (hw.symm.trans hres)
    exact .result hu rfl (resolveInputs_spec hi' (hnodup u hu)).1 hok'
  · exact absurd hdot (by decide)

/-- Only a result of an extraction has a report id. -/
theorem resultType_of_report (hv : validateResult u.resultType v inputs = .ok ()) {w : Json}
    (hw : v.get? "report_id".toList = some w) : u.resultType = .reportExtraction := by
  cases hk : u.resultType with
  | reportExtraction => rfl
  | taskAnswer =>
      rw [hk] at hv
      rw [get?_eq_none (hasFields_of_taskAnswer hv) (by decide)] at hw
      cases hw
  | reportGroups =>
      rw [hk] at hv
      rw [get?_eq_none (hasFields_of_reportGroups hv) (by decide)] at hw
      cases hw

/-- It is the key of the source the extraction read. -/
theorem sourceRefs_of_report (hkeys : inputs.keys = u.inputRefs)
    (hk : u.resultType = .reportExtraction)
    (hv : validateResult u.resultType v inputs = .ok ()) :
    ∃ i, v.get? "report_id".toList = some (.str i) ∧ u.sourceRefs = [sourcesPrefix ++ i] := by
  rw [hk] at hv
  obtain ⟨i, -, -, hi, -, -, hrefs, -⟩ := reportExtraction_spec hv
  rw [hkeys] at hrefs
  exact ⟨i, hi, hrefs⟩

/-- An extraction can be accepted when the task reads one source, which is not blank. -/
theorem extraction_iff (hkeys : inputs.keys = t.inputRefs)
    (hfrom : ∀ ref ∈ t.inputRefs, ∃ v, inputs.get? ref = some v ∧
      InputFrom x.sources p ref v) :
    (∃ v, validateResult .reportExtraction v inputs = .ok ()) ↔
      ∃ key text, t.sourceRefs = [sourcesPrefix ++ key] ∧
        x.sources.get? key = some text ∧ text.strip ≠ [] := by
  have hget : ∀ key, sourcesPrefix ++ key ∈ t.inputRefs → ∃ text,
      inputs.get? (sourcesPrefix ++ key) = some (.str text) ∧
        x.sources.get? key = some text := by
    intro key hkey
    obtain ⟨v, hv, hsrc⟩ := hfrom _ hkey
    cases hsrc with
    | source href htext hvt =>
        obtain rfl := List.append_cancel_left href
        exact ⟨_, hvt ▸ hv, htext⟩
    | result _ href _ _ => exact absurd href sourcesPrefix_ne_resultsPrefix
  rw [exists_reportExtraction_iff, hkeys]
  constructor
  · rintro ⟨key, text, htext, hrefs, hblank⟩
    refine ⟨key, text, hrefs, ?_, hblank⟩
    obtain ⟨text', htext', hsrc⟩ := hget key (List.mem_of_mem_filter (hrefs ▸ List.mem_cons_self))
    obtain rfl := Json.str.inj (Option.some.inj (htext.symm.trans htext'))
    exact hsrc
  · rintro ⟨key, text, hrefs, hsrc, hblank⟩
    obtain ⟨text', htext', hsrc'⟩ :=
      hget key (List.mem_of_mem_filter (hrefs ▸ List.mem_cons_self :
        sourcesPrefix ++ key ∈ t.sourceRefs))
    obtain rfl := Option.some.inj (hsrc.symm.trans hsrc')
    exact ⟨key, text, htext', hrefs, hblank⟩

/-- A grouping can be accepted when the task reads results of extractions, each of another
source. -/
theorem grouping_iff (hids : (p.tasks.map Task.id).Nodup) (hne : t.inputRefs ≠ [])
    (hkeys : inputs.keys = t.inputRefs)
    (hfrom : ∀ ref ∈ t.inputRefs, ∃ v, inputs.get? ref = some v ∧
      InputFrom x.sources p ref v) :
    (∃ v, validateResult .reportGroups v inputs = .ok ()) ↔
      (∀ ref ∈ t.inputRefs, ∃ d ∈ p.tasks, ref = resultsPrefix ++ d.id ∧
        d.resultType = .reportExtraction) ∧
      ∀ d ∈ p.tasks, ∀ d' ∈ p.tasks, resultsPrefix ++ d.id ∈ t.inputRefs →
        resultsPrefix ++ d'.id ∈ t.inputRefs → d.sourceRefs = d'.sourceRefs → d = d' := by
  have huniq : ∀ {d d' : Task}, d ∈ p.tasks → d' ∈ p.tasks →
      resultsPrefix ++ d.id = resultsPrefix ++ d'.id → d = d' := fun hd hd' h =>
    List.inj_on_of_nodup_map hids hd hd' (List.append_cancel_left h)
  rw [exists_reportGroups_iff, hkeys]
  constructor
  · rintro ⟨-, id, hid, hinj⟩
    -- behind each reference stands an extraction of the source its report id names
    have hreport : ∀ ref ∈ t.inputRefs, ∃ d ∈ p.tasks, ref = resultsPrefix ++ d.id ∧
        d.resultType = .reportExtraction ∧ d.sourceRefs = [sourcesPrefix ++ id ref] := by
      intro ref href
      obtain ⟨v, hv, hsrc⟩ := hfrom ref href
      have hv' := hid (ref, v) (Dict.mem_entries_iff.mpr hv)
      cases hsrc with
      | source _ _ hvt =>
          rw [hvt] at hv'
          cases hv'
      | @result d _ hd hdref hdkeys hdv =>
          have hk := resultType_of_report hdv hv'
          obtain ⟨i, hi, hrefs⟩ := sourceRefs_of_report hdkeys hk hdv
          obtain rfl := Json.str.inj (Option.some.inj (hi.symm.trans hv'))
          exact ⟨d, hd, hdref, hk, hrefs⟩
    refine ⟨fun ref href => ?_, fun d hd d' hd' href href' hsame => ?_⟩
    · obtain ⟨d, hd, hdref, hk, -⟩ := hreport ref href
      exact ⟨d, hd, hdref, hk⟩
    · obtain ⟨u, hu, huref, -, hurefs⟩ := hreport _ href
      obtain ⟨u', hu', huref', -, hurefs'⟩ := hreport _ href'
      obtain rfl := huniq hd hu huref
      obtain rfl := huniq hd' hu' huref'
      rw [hurefs, hurefs'] at hsame
      exact huniq hd hd' (hinj _ href _ href'
        (List.append_cancel_left (List.singleton_inj.mp hsame)))
  · rintro ⟨hext, hdiff⟩
    have hreport : ∀ ref ∈ t.inputRefs, ∃ d ∈ p.tasks, ref = resultsPrefix ++ d.id ∧
        ∃ i v, inputs.get? ref = some v ∧ v.get? "report_id".toList = some (.str i) ∧
          d.sourceRefs = [sourcesPrefix ++ i] := by
      intro ref href
      obtain ⟨d, hd, rfl, hk⟩ := hext ref href
      obtain ⟨v, hv, hsrc⟩ := hfrom _ href
      cases hsrc with
      | source hsref _ _ => exact absurd hsref.symm sourcesPrefix_ne_resultsPrefix
      | @result u _ hu huref hukeys huv =>
          obtain rfl := huniq hd hu huref
          obtain ⟨i, hi, hrefs⟩ := sourceRefs_of_report hukeys hk huv
          exact ⟨d, hd, rfl, i, v, hv, hi, hrefs⟩
    choose! d hd hdref i v hv hi hrefs using hreport
    refine ⟨hne, i, fun e he => ?_, fun k hk k' hk' hsame => ?_⟩
    · have hmem : e.1 ∈ t.inputRefs := hkeys ▸ List.mem_map_of_mem (f := Prod.fst) he
      have hget : inputs.get? e.1 = some e.2 := Dict.mem_entries_iff.mp he
      rw [hv e.1 hmem] at hget
      rw [← Option.some.inj hget]
      exact hi e.1 hmem
    · have hdd := hdiff (d k hk) (hd k hk) (d k' hk') (hd k' hk') (hdref k hk ▸ hk)
        (hdref k' hk' ▸ hk') (by rw [hrefs k hk, hrefs k' hk', hsame])
      rw [hdref k hk, hdref k' hk', hdd]

/-- **Which tasks are satisfiable**: once the dependencies of an accepted task have results
that passed their checks, there is a value that passes the check of the task on the inputs
its worker resolves exactly when the inputs fit the kind of its result. -/
theorem satisfiable_iff
    (hp : Plan.parse value x.sources.keys x.limits.maxTasks x.tiers = .ok p) (ht : t ∈ p.tasks)
    (hdeps : ∀ d ∈ t.dependsOn, ∃ u ∈ p.tasks, u.id = d ∧ Done x.sources results u)
    (hi : resolveInputs x.sources results t.inputRefs .empty = .ok inputs) :
    (∃ v, validateResult t.resultType v inputs = .ok ()) ↔ Fits x.sources p t := by
  obtain ⟨hkeys, hfrom⟩ := inputFrom_of_resolved hp ht hdeps hi
  unfold Fits
  cases t.resultType with
  | taskAnswer => simp only [exists_taskAnswer]
  | reportExtraction => exact extraction_iff hkeys hfrom
  | reportGroups =>
      obtain ⟨_, _, hrow⟩ := (Plan.parse_eq_ok_iff.mp hp).exists_row ht
      exact grouping_iff (Plan.accepted_of_parse hp).ids hrow.inputRefs.2.2 hkeys hfrom

end Tasks

/-! ## Two plans -/

/-- A task of the given kind. -/
def kindTask (id : String) (refs deps : List String) (kind : ResultType) : Task where
  id := id.toList
  instruction := "Read it".toList
  preferredTier := .small
  inputRefs := refs.map String.toList
  dependsOn := deps.map String.toList
  resultType := kind
  checks := kind.checks

/-- An extraction and a grouping of it. -/
def groupedPlan : Plan :=
  ⟨[kindTask "one" ["sources.a"] [] .reportExtraction,
    kindTask "two" ["results.one"] ["one"] .reportGroups], "Join them".toList⟩

/-- The extraction's result. -/
def extracted : Json :=
  .obj [("report_id".toList, .str "a".toList), ("quote".toList, .str "ext".toList)]

theorem satisfiable_iff_groupedPlan :
    ∃ v, validateResult .reportGroups v (Dict.ofList [("results.one".toList, extracted)]) =
      .ok () := by
  have hp : Plan.parse (planReply [readingRow "one" ["sources.a"] [] .reportExtraction,
      readingRow "two" ["results.one"] ["one"] .reportGroups]) planSetup.sources.keys
      planSetup.limits.maxTasks planSetup.tiers = .ok groupedPlan := by decide +kernel
  have hin : resolveInputs planSetup.sources (Dict.ofList [("one".toList, extracted)])
      ["results.one".toList] .empty = .ok (Dict.ofList [("results.one".toList, extracted)]) := rfl
  refine (satisfiable_iff (t := kindTask "two" ["results.one"] ["one"] .reportGroups) hp
    (by decide +kernel) (fun d hd => ?_) hin).mpr ⟨by decide +kernel, by decide +kernel⟩
  obtain rfl : d = "one".toList := by simpa [kindTask] using hd
  exact ⟨kindTask "one" ["sources.a"] [] .reportExtraction, by decide +kernel, rfl, extracted,
    Dict.ofList [("sources.a".toList, .str "text".toList)], rfl, rfl, by decide +kernel⟩

/-- A grouping of sources is accepted as a task, and no value passes its check. -/
theorem grouping_unsatisfiable : planSetup.requestOk = true ∧
    Plan.parse (planReply [readingRow "one" ["sources.a"] [] .reportGroups])
      planSetup.sources.keys planSetup.limits.maxTasks planSetup.tiers =
        .ok ⟨[kindTask "one" ["sources.a"] [] .reportGroups], "Join them".toList⟩ ∧
    ∀ results, ∃ inputs, resolveInputs planSetup.sources results ["sources.a".toList] .empty =
      .ok inputs ∧ ∀ v, validateResult .reportGroups v inputs ≠ .ok () := by
  refine ⟨by decide +kernel, by decide +kernel, fun _ =>
    ⟨Dict.ofList [("sources.a".toList, .str "text".toList)], rfl, fun v hv => ?_⟩⟩
  obtain ⟨-, id, hid, -⟩ := exists_reportGroups_iff.mp ⟨v, hv⟩
  have := hid ("sources.a".toList, .str "text".toList) (Dict.mem_entries_iff.mpr rfl)
  cases this

end HorizonRelay
