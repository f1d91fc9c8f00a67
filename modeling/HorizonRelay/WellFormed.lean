import HorizonRelay.Lib.Layers
import HorizonRelay.Plan

/-!
# What the plan reader accepts

The plans the reader accepts, described without the reader: which fields a value has, what
they hold, and how the tasks they describe hang together.

## Main definitions

* `Needs` — the dependencies between the tasks of a plan.
* `Refers` — what an input reference names.
* `RowOf`, `WellFormed` — a value that describes a task, and a plan.

## Main results

* `refuseCycles_iff` — the peeling loop finds exactly the graphs without cycles.
* `parse_correct` — the reader accepts exactly the well-formed plans, and refuses all
  others with a `ValidationError`.
-/

namespace HorizonRelay

open Py

theorem Tier.ofName?_eq_some {s : Str} {t : Tier} : Tier.ofName? s = some t ↔ s = t.name := by
  constructor
  · intro h
    exact (by simpa using List.find?_some h : t.name = s).symm
  · rintro rfl
    cases t <;> rfl

theorem ResultType.ofName?_eq_some {s : Str} {t : ResultType} :
    ResultType.ofName? s = some t ↔ s = t.name := by
  constructor
  · intro h
    exact (by simpa using List.find?_some h : t.name = s).symm
  · rintro rfl
    cases t <;> rfl

namespace Plan

/-! ## The description -/

/-- The task `a` depends on `b`. -/
def Needs (tasks : List Task) (a b : Str) : Prop :=
  ∃ t ∈ tasks, t.id = a ∧ b ∈ t.dependsOn

/-- A reference names a key of a map: the name of the map, a dot and the key. The dot before
an empty key may be left out. -/
def Refers (ref kind key : Str) : Prop := ref = kind ++ '.' :: key ∨ (ref = kind ∧ key = [])

/-- A task ID is a lower-case letter, followed by at most 63 lower-case letters, digits and
underscores. -/
def IsId (s : Str) : Prop :=
  ∃ c rest, s = c :: rest ∧ ('a' ≤ c ∧ c ≤ 'z') ∧ rest.length ≤ 63 ∧
    ∀ d ∈ rest, ('a' ≤ d ∧ d ≤ 'z') ∨ ('0' ≤ d ∧ d ≤ '9') ∨ d = '_'

/-- A text of 1 to 2000 characters. -/
def TextOk (s : Str) : Prop := 1 ≤ s.length ∧ s.length ≤ 2000

instance (s : Str) : Decidable (TextOk s) := inferInstanceAs (Decidable (_ ∧ _))

/-- At most 12 distinct strings. -/
def ListOk (ss : List Str) : Prop := ss.length ≤ 12 ∧ ss.Nodup

/-- A row of a plan holds the fields of a task, and they are as they must be. -/
structure RowOf (version : ℤ) (tiers : List Tier) (row : Json) (task : Task) : Prop where
  fields : row.HasFields (taskFields version)
  id : row.get? "id".toList = some (.str task.id) ∧ IsId task.id
  instruction : row.get? "instruction".toList = some (.str task.instruction) ∧
    TextOk task.instruction
  preferredTier : row.get? "preferred_tier".toList = some (.str task.preferredTier.name) ∧
    task.preferredTier ∈ tiers
  resultType : row.get? "result_type".toList = some (.str task.resultType.name)
  why : if version = 1 then task.why = []
    else row.get? "why".toList = some (.str task.why) ∧ TextOk task.why
  inputRefs : row.get? "input_refs".toList = some (.arr (task.inputRefs.map .str)) ∧
    ListOk task.inputRefs ∧ task.inputRefs ≠ []
  dependsOn : row.get? "depends_on".toList = some (.arr (task.dependsOn.map .str)) ∧
    ListOk task.dependsOn
  checks : row.get? "checks".toList = some (.arr (task.checks.map .str)) ∧
    ListOk task.checks ∧ ∀ k, k ∈ task.checks ↔ k ∈ task.resultType.checks

/-- A value describes a plan: its rows are the tasks, in order, and these hang together. -/
structure WellFormed (value : Json) (sources : List Str) (maxTasks : ℕ) (tiers : List Tier)
    (plan : Plan) : Prop where
  fields : value.HasFields ["version".toList, "tasks".toList, "final_instruction".toList]
  rows : ∃ version rows, (version = 1 ∨ version = 2) ∧
    value.get? "version".toList = some (.int version) ∧
    value.get? "tasks".toList = some (.arr rows) ∧
    List.Forall₂ (RowOf version tiers) rows plan.tasks
  count : 1 ≤ plan.tasks.length ∧ plan.tasks.length ≤ maxTasks
  instruction : value.get? "final_instruction".toList = some (.str plan.finalInstruction) ∧
    TextOk plan.finalInstruction
  ids : (plan.tasks.map Task.id).Nodup
  dependsOn : ∀ task ∈ plan.tasks, ∀ d ∈ task.dependsOn,
    ∃ other ∈ plan.tasks, other.id = d ∧ other ≠ task
  refs : ∀ task ∈ plan.tasks, ∀ ref ∈ task.inputRefs,
    (∃ key ∈ sources, Refers ref "sources".toList key) ∨
      ∃ key ∈ task.dependsOn, Refers ref "results".toList key
  acyclic : Layers.Acyclic (Needs plan.tasks)

/-- The dependencies of a task are those it declares. -/
theorem needs_iff {tasks : List Task} (hids : (tasks.map Task.id).Nodup) {t : Task}
    (ht : t ∈ tasks) {d : Str} : Needs tasks t.id d ↔ d ∈ t.dependsOn := by
  constructor
  · rintro ⟨u, hu, hid, hd⟩
    obtain rfl := List.inj_on_of_nodup_map hids hu ht hid
    exact hd
  · exact fun hd => ⟨t, ht, rfl, hd⟩

/-! ## Fields -/

theorem textField_eq_ok {row : List (Str × Json)} {key s : Str} :
    textField row key = .ok s ↔ row.lookup key = some (.str s) ∧ TextOk s := by
  unfold textField TextOk
  split
  · rename_i s' hs
    obtain ⟨v, hv, hs⟩ := Option.bind_eq_some_iff.mp hs
    rw [Json.str?_eq_some.mp hs] at hv
    split
    · rename_i hlen
      simp only [hv, Except.ok.injEq, Option.some.injEq, Json.str.injEq]
      refine ⟨?_, And.left⟩
      rintro rfl
      exact ⟨rfl, hlen⟩
    · rename_i hlen
      simp only [hv, reduceCtorEq, Option.some.injEq, Json.str.injEq, false_iff]
      rintro ⟨rfl, h⟩
      exact hlen h
  · rename_i hs
    simp only [reduceCtorEq, false_iff]
    rintro ⟨h, -⟩
    simp [h] at hs

theorem listField_eq_ok {row : List (Str × Json)} {key : Str} {ss : List Str} :
    listField row key = .ok ss ↔ row.lookup key = some (.arr (ss.map .str)) ∧ ListOk ss := by
  unfold listField ListOk
  split
  · rename_i ss' hs
    obtain ⟨items, hitems, hs⟩ := Option.bind_eq_some_iff.mp hs
    obtain ⟨v, hv, hitems⟩ := Option.bind_eq_some_iff.mp hitems
    rw [Json.arr?_eq_some.mp hitems, Json.strs?_eq_some.mp hs] at hv
    have hinj : Function.Injective (List.map Json.str) :=
      List.map_injective_iff.mpr fun _ _ h => Json.str.inj h
    split
    · rename_i hlen
      simp only [hv, Except.ok.injEq, Option.some.injEq, Json.arr.injEq, hinj.eq_iff]
      refine ⟨?_, And.left⟩
      rintro rfl
      exact ⟨rfl, hlen⟩
    · rename_i hlen
      simp only [hv, reduceCtorEq, Option.some.injEq, Json.arr.injEq, hinj.eq_iff, false_iff]
      rintro ⟨rfl, h⟩
      exact hlen h
  · rename_i hs
    simp only [reduceCtorEq, false_iff]
    rintro ⟨h, -⟩
    rw [h, Option.bind_some, Json.arr?, Option.bind_some, Json.strs?_eq_some.mpr rfl] at hs
    cases hs

theorem IsId.textOk {s : Str} (h : IsId s) : TextOk s := by
  obtain ⟨c, rest, rfl, -, hlen, -⟩ := h
  rw [TextOk, List.length_cons]
  omega

theorem isTaskId_iff {s : Str} : isTaskId s = true ↔ IsId s := by
  unfold IsId
  cases s with
  | nil => simp [isTaskId]
  | cons c rest =>
      simp only [isTaskId, isTaskId.lower, Bool.and_eq_true, decide_eq_true_eq,
        List.all_eq_true, Bool.or_eq_true, List.cons.injEq]
      constructor
      · rintro ⟨⟨hc, hrest⟩, hlen⟩
        exact ⟨c, rest, ⟨rfl, rfl⟩, hc, hlen, fun d hd => by simpa [or_assoc] using hrest d hd⟩
      · rintro ⟨c', rest', ⟨rfl, rfl⟩, hc, hlen, hrest⟩
        exact ⟨⟨hc, fun d hd => by simpa [or_assoc] using hrest d hd⟩, hlen⟩

theorem whyField_eq_ok {version : ℤ} {row : List (Str × Json)} {s : Str} :
    whyField version row = .ok s ↔
      if version = 1 then s = [] else row.lookup "why".toList = some (.str s) ∧ TextOk s := by
  unfold whyField
  split
  · simp [eq_comm]
  · exact textField_eq_ok

/-! ## Rows -/

/-- The required checks of a kind, listed in any order. -/
theorem checks_iff {checks required : List Str} :
    (checks.all required.contains && required.all checks.contains) = true ↔
      ∀ k, k ∈ checks ↔ k ∈ required := by
  simp only [Bool.and_eq_true, List.all_eq_true, List.contains_iff_mem]
  exact ⟨fun h k => ⟨h.1 k, h.2 k⟩, fun h => ⟨fun k => (h k).mp, fun k => (h k).mpr⟩⟩

/-- **A row is read as the task it describes.** -/
theorem parseTask_eq_ok {version : ℤ} {tiers : List Tier} {row : Json} {task : Task} :
    parseTask version tiers row = .ok task ↔ RowOf version tiers row task := by
  unfold parseTask
  cases hrow : row.obj? with
  | none =>
      simp only [refuse_ne_ok, false_iff]
      rintro ⟨⟨fields, rfl, -⟩, -⟩
      cases hrow
  | some fields =>
      obtain rfl := Json.obj?_eq_some.mp hrow
      simp only [bind_eq_ok, refuseIf_eq_ok, not_not, Json.hasKeys_iff, textField_eq_ok,
        whyField_eq_ok, isTaskId_iff]
      constructor
      · rintro ⟨_, hfields, id, hid, instruction, hinstr, tierName, htier, typeName, htype,
          why, hwhy, _, hisId, h⟩
        split at h
        · rename_i tier kind htier' hkind
          simp only [bind_eq_ok, refuseIf_eq_ok, not_not, listField_eq_ok, checks_iff] at h
          obtain ⟨refs, hrefs, deps, hdeps, checks, hchecks, _, hsame, _, hne, h⟩ := h
          cases h
          obtain ⟨htier', hmem⟩ := Option.filter_eq_some_iff.mp htier'
          obtain rfl := Tier.ofName?_eq_some.mp htier'
          obtain rfl := ResultType.ofName?_eq_some.mp hkind
          exact
            { fields := ⟨fields, rfl, hfields⟩
              id := ⟨hid.1, hisId⟩
              instruction := hinstr
              preferredTier := ⟨htier.1, by simpa using hmem⟩
              resultType := htype.1
              why := hwhy
              inputRefs := ⟨hrefs.1, hrefs.2, by simpa using hne⟩
              dependsOn := hdeps
              checks := ⟨hchecks.1, hchecks.2, hsame⟩ }
        · exact absurd h refuse_ne_ok
      · rintro ⟨⟨fields', hobj, hfields⟩, hid, hinstr, htier, htype, hwhy, hrefs, hdeps, hchecks⟩
        cases hobj
        refine ⟨(), hfields, task.id, ⟨hid.1, hid.2.textOk⟩, task.instruction, hinstr,
          task.preferredTier.name, ⟨htier.1, ?_⟩, task.resultType.name, ⟨htype, ?_⟩, task.why,
          hwhy, (), hid.2, ?_⟩
        · cases task.preferredTier <;> decide
        · cases task.resultType <;> decide
        · have ht : (Tier.ofName? task.preferredTier.name).filter tiers.contains =
              some task.preferredTier :=
            Option.filter_eq_some_iff.mpr
              ⟨Tier.ofName?_eq_some.mpr rfl, by simpa using htier.2⟩
          rw [ht, ResultType.ofName?_eq_some.mpr rfl]
          simp only [bind_eq_ok, refuseIf_eq_ok, not_not, listField_eq_ok, checks_iff]
          exact ⟨_, ⟨hrefs.1, hrefs.2.1⟩, _, hdeps, _, ⟨hchecks.1, hchecks.2.1⟩, (),
            hchecks.2.2, (), by simpa using hrefs.2.2, rfl⟩

/-- Rows are read one by one. -/
theorem mapM_eq_ok_iff {α β : Type} {f : α → Except Exc β} {as : List α} {bs : List β} :
    as.mapM f = .ok bs ↔ List.Forall₂ (fun a b => f a = .ok b) as bs := by
  induction as generalizing bs with
  | nil => cases bs <;> simp [pure, Except.pure]
  | cons a as ih =>
      rw [List.mapM_cons]
      simp only [bind_eq_ok]
      constructor
      · rintro ⟨b, hb, bs', hbs, h⟩
        cases h
        exact .cons hb (ih.mp hbs)
      · intro h
        cases h with
        | cons hb hbs => exact ⟨_, hb, _, ih.mpr hbs, rfl⟩

theorem forM_eq_ok_iff {α : Type} {f : α → Except Exc PUnit} {as : List α} :
    as.forM f = .ok () ↔ ∀ a ∈ as, f a = .ok () := by
  refine ⟨forall_of_forM_eq_ok, ?_⟩
  induction as with
  | nil => exact fun _ => rfl
  | cons a as ih =>
      intro h
      change (f a >>= fun _ => as.forM f) = .ok ()
      rw [h a (by simp)]
      exact ih fun b hb => h b (by simp [hb])

/-! ## References -/

/-- `partition` splits a reference into the map and the key it names. -/
theorem partition_eq_iff {ref kind key : Str} (hkind : '.' ∉ kind) :
    ((ref.partition '.').1 = kind ∧ (ref.partition '.').2.2 = key) ↔ Refers ref kind key := by
  have hall : ∀ c ∈ kind, (c != '.') = true := by
    intro c hc
    simpa using ne_of_mem_of_not_mem hc hkind
  have hdrop : kind.dropWhile (· != '.') = [] := by simpa using hall
  have htake : kind.takeWhile (· != '.') = kind := by simpa using hall
  constructor
  · rintro ⟨rfl, rfl⟩
    unfold Str.partition Refers
    have happ := List.takeWhile_append_dropWhile (p := (· != '.')) (l := ref)
    cases h : ref.dropWhile (· != '.') with
    | nil => exact .inr ⟨rfl, rfl⟩
    | cons c rest =>
        have hc : c = '.' := by
          have := List.head?_dropWhile_not (· != '.') ref
          simpa [h] using this
        rw [h, hc] at happ
        exact .inl happ.symm
  · rintro (rfl | ⟨rfl, rfl⟩)
    · have h₁ : (kind ++ '.' :: key).dropWhile (· != '.') = '.' :: key := by
        rw [List.dropWhile_append, hdrop]
        simp
      have h₂ : (kind ++ '.' :: key).takeWhile (· != '.') = kind := by
        rw [List.takeWhile_append, htake]
        simp
      unfold Str.partition
      rw [h₁, h₂]
      exact ⟨rfl, rfl⟩
    · unfold Str.partition
      rw [hdrop]
      exact ⟨rfl, rfl⟩

/-- The references that are accepted. -/
theorem refOk_iff {sources : List Str} {task : Task} {ref : Str} :
    refOk sources task ref = true ↔
      (∃ key ∈ sources, Refers ref "sources".toList key) ∨
        ∃ key ∈ task.dependsOn, Refers ref "results".toList key := by
  have hsources : ∀ key, Refers ref "sources".toList key ↔ _ :=
    fun key => (partition_eq_iff (by decide)).symm
  have hresults : ∀ key, Refers ref "results".toList key ↔ _ :=
    fun key => (partition_eq_iff (by decide)).symm
  simp only [refOk, Bool.or_eq_true, Bool.and_eq_true, decide_eq_true_eq,
    List.contains_iff_mem, hsources, hresults]
  refine or_congr ⟨fun h => ⟨_, h.2, h.1, rfl⟩, ?_⟩ ⟨fun h => ⟨_, h.2, h.1, rfl⟩, ?_⟩
  · rintro ⟨key, hkey, hkind, rfl⟩
    exact ⟨hkind, hkey⟩
  · rintro ⟨key, hkey, hkind, rfl⟩
    exact ⟨hkind, hkey⟩

theorem checkRefs_iff {sources ids : List Str} {task : Task} :
    checkRefs sources ids task = .ok () ↔
      ((∀ d ∈ task.dependsOn, d ∈ ids) ∧ task.id ∉ task.dependsOn) ∧
        ∀ ref ∈ task.inputRefs, refOk sources task ref = true := by
  unfold checkRefs
  simp only [bind_eq_ok, refuseIf_eq_ok, not_not, exists_const, Bool.or_eq_true,
    Bool.not_eq_true', not_or, Bool.not_eq_false, List.all_eq_true, List.contains_iff_mem]

/-! ## Cycles -/

/-- Turns that are not needed change nothing. -/
theorem checkAcyclic_add {tasks : List Task} {turns : ℕ} {resolved : List Str}
    {r : Except Exc Unit} (h : checkAcyclic tasks turns resolved = some r) (more : ℕ) :
    checkAcyclic tasks (turns + more) resolved = some r := by
  induction turns generalizing resolved with
  | zero =>
      unfold checkAcyclic at h
      split at h
      · rename_i hle
        unfold checkAcyclic
        rw [if_pos hle, h]
      · cases h
  | succ turns ih =>
      rw [Nat.add_right_comm]
      unfold checkAcyclic at h ⊢
      split at h
      · rename_i hle
        rw [if_pos hle, h]
      · rename_i hle
        rw [if_neg hle]
        simp only at h ⊢
        split at h
        · exact h
        · exact ih h

/-- The loop that resolves tasks turn by turn succeeds exactly when no task depends on
itself, at any distance. -/
theorem refuseCycles_iff {tasks : List Task} (hids : (tasks.map Task.id).Nodup)
    (hclosed : ∀ t ∈ tasks, ∀ d ∈ t.dependsOn, d ∈ tasks.map Task.id) :
    refuseCycles tasks = .ok () ↔ Layers.Acyclic (Needs tasks) := by
  classical
  rw [refuseCycles_eq_ok_iff]
  constructor
  · -- what lies on a cycle waits for something on a cycle
    intro h a ha
    let keys := (tasks.map Task.id).filter fun k => ¬ Relation.TransGen (Needs tasks) k k
    have hsub : tasks.map Task.id ⊆ keys := by
      refine subset_of_checkAcyclic hids ?_ h List.nodup_nil (List.nil_subset _)
        (List.nil_subset _)
      intro t ht hnot
      have hcycle : Relation.TransGen (Needs tasks) t.id t.id := by
        by_contra hno
        exact hnot (List.mem_filter.mpr ⟨List.mem_map_of_mem ht, by simpa using hno⟩)
      obtain ⟨d, ⟨t', ht', hid, hd⟩, hdd⟩ := Layers.exists_needs_of_cycle hcycle
      obtain rfl := List.inj_on_of_nodup_map hids ht' ht hid
      refine ⟨d, hd, fun hmem => ?_⟩
      have := (List.mem_filter.mp hmem).2
      simp [hdd] at this
    obtain ⟨b, ⟨t, ht, rfl, -⟩, -⟩ := Layers.exists_needs_of_cycle ha
    have := (List.mem_filter.mp (hsub (List.mem_map_of_mem ht))).2
    simp [ha] at this
  · intro hacyclic
    have key : ∀ turns resolved r, resolved.Nodup → resolved ⊆ tasks.map Task.id →
        checkAcyclic tasks turns resolved = some r → r = .ok () := by
      intro turns
      induction turns with
      | zero =>
          intro resolved r hnodup hsub h
          unfold checkAcyclic at h
          split at h <;> cases h
          rfl
      | succ turns ih =>
          intro resolved r hnodup hsub h
          unfold checkAcyclic at h
          split at h
          · cases h
            rfl
          · rename_i hlt
            have hpeel : peel tasks resolved ≠ [] := by
              obtain ⟨k, hk, hk'⟩ : ∃ k ∈ tasks.map Task.id, k ∉ resolved := by
                by_contra hall
                push Not at hall
                have := (List.subperm_of_subset hids hall).length_le
                rw [List.length_map] at this
                omega
              -- a task left that waits for no task left
              obtain ⟨a, ⟨ha, ha'⟩, hmin⟩ := hacyclic.exists_minimal
                (s := {k | k ∈ tasks.map Task.id ∧ k ∉ resolved})
                ((List.finite_toSet _).subset fun k hk => hk.1) ⟨k, hk, hk'⟩
              obtain ⟨t, ht, rfl⟩ := List.mem_map.mp ha
              refine List.ne_nil_of_mem (mem_peel.mpr ⟨t, ht, rfl, ha', fun d hd => ?_⟩)
              by_contra hd'
              exact hmin d ⟨t, ht, rfl, hd⟩ ⟨hclosed t ht d hd, hd'⟩
            simp only at h
            refine ih _ _ (nodup_append_peel hids hnodup) ?_ h
            refine List.append_subset.mpr ⟨hsub, fun k hk => ?_⟩
            obtain ⟨t, ht, rfl, -⟩ := mem_peel.mp hk
            exact List.mem_map_of_mem ht
    rw [checkAcyclic_eq_some, key _ _ _ List.nodup_nil (List.nil_subset _) checkAcyclic_eq_some]

/-! ## The reader -/

/-- The checks after the rows are read. -/
theorem checkTasks_iff {sources : List Str} {tasks : List Task} :
    ((tasks.map Task.id).Nodup ∧
      (∀ t ∈ tasks, checkRefs sources (tasks.map Task.id) t = .ok ()) ∧
      refuseCycles tasks = .ok ()) ↔
    (tasks.map Task.id).Nodup ∧
      (∀ t ∈ tasks, ∀ d ∈ t.dependsOn, ∃ other ∈ tasks, other.id = d ∧ other ≠ t) ∧
      (∀ t ∈ tasks, ∀ ref ∈ t.inputRefs,
        (∃ key ∈ sources, Refers ref "sources".toList key) ∨
          ∃ key ∈ t.dependsOn, Refers ref "results".toList key) ∧
      Layers.Acyclic (Needs tasks) := by
  refine and_congr_right fun hids => ?_
  simp only [checkRefs_iff, refOk_iff]
  constructor
  · rintro ⟨hrefs, hacyclic⟩
    refine ⟨fun t ht d hd => ?_, fun t ht => (hrefs t ht).2,
      (refuseCycles_iff hids fun t ht => (hrefs t ht).1.1).mp hacyclic⟩
    obtain ⟨other, hother, rfl⟩ := List.mem_map.mp ((hrefs t ht).1.1 d hd)
    refine ⟨other, hother, rfl, ?_⟩
    rintro rfl
    exact (hrefs other ht).1.2 hd
  · rintro ⟨hdeps, hrefs, hacyclic⟩
    have hclosed : ∀ t ∈ tasks, ∀ d ∈ t.dependsOn, d ∈ tasks.map Task.id := by
      intro t ht d hd
      obtain ⟨other, hother, rfl, -⟩ := hdeps t ht d hd
      exact List.mem_map_of_mem hother
    refine ⟨fun t ht => ⟨⟨hclosed t ht, fun hself => ?_⟩, hrefs t ht⟩,
      (refuseCycles_iff hids hclosed).mpr hacyclic⟩
    obtain ⟨other, hother, hid, hne⟩ := hdeps t ht t.id hself
    exact hne (List.inj_on_of_nodup_map hids hother ht hid)

theorem parse_eq_ok_iff {value : Json} {sources : List Str} {maxTasks : ℕ}
    {tiers : List Tier} {plan : Plan} :
    parse value sources maxTasks tiers = .ok plan ↔
      WellFormed value sources maxTasks tiers plan := by
  constructor
  · intro h
    unfold parse at h
    repeat' split at h
    all_goals try exact absurd h refuse_ne_ok
    rename_i fields hobj hkeys _ version hversion hsupported _ rows hrows hcount _ instruction
      hinstruction hlength
    simp only [bind_eq_ok, refuseIf_eq_ok, not_not, mapM_eq_ok_iff, parseTask_eq_ok] at h
    obtain ⟨tasks, htasks, _, hids, _, hrefs, _, hacyclic, h⟩ := h
    cases h
    obtain rfl := Json.obj?_eq_some.mp hobj
    obtain ⟨v, hv, hrows⟩ := Option.bind_eq_some_iff.mp hrows
    obtain rfl := Json.arr?_eq_some.mp hrows
    obtain ⟨w, hw, hinstruction⟩ := Option.bind_eq_some_iff.mp hinstruction
    obtain rfl := Json.str?_eq_some.mp hinstruction
    obtain ⟨-, hdeps, hnames, hcycles⟩ :=
      checkTasks_iff.mp ⟨hids, forM_eq_ok_iff.mp hrefs, hacyclic⟩
    exact
      { fields := ⟨fields, rfl, Json.hasKeys_iff.mp (by simpa using hkeys)⟩
        rows := ⟨version, rows, by omega, hversion, hv, htasks⟩
        count := by
          rw [← htasks.length_eq]
          exact not_not.mp hcount
        instruction := ⟨hw, not_not.mp hlength⟩
        ids := hids
        dependsOn := hdeps
        refs := hnames
        acyclic := hcycles }
  · rintro ⟨⟨fields, rfl, hkeys⟩, ⟨version, rows, hsupported, hversion, hv, htasks⟩, hcount,
      ⟨hw, hlength⟩, hids, hdeps, hnames, hcycles⟩
    obtain ⟨-, hrefs, hacyclic⟩ := checkTasks_iff.mpr ⟨hids, hdeps, hnames, hcycles⟩
    have hv : fields.lookup "tasks".toList = some (.arr rows) := hv
    have hw : fields.lookup "final_instruction".toList = some (.str plan.finalInstruction) := hw
    have hversion : fields.lookup "version".toList = some (.int version) := hversion
    have hlength : ¬ ¬ (1 ≤ plan.finalInstruction.length ∧ plan.finalInstruction.length ≤ 2000) :=
      not_not.mpr hlength
    have hunsupported : ¬ (version ≠ 1 ∧ version ≠ 2) := by omega
    have hnum : ¬ ¬ (1 ≤ rows.length ∧ rows.length ≤ maxTasks) := by
      rw [htasks.length_eq]
      exact not_not.mpr hcount
    unfold parse
    simp only [Json.obj?, Json.hasKeys_iff.mpr hkeys, Bool.not_true, Bool.false_eq_true,
      if_false, hversion, if_neg hunsupported, hv, Option.bind_some, Json.arr?, if_neg hnum, hw,
      Json.str?]
    rw [if_neg hlength]
    simp only [bind_eq_ok, refuseIf_eq_ok, not_not, mapM_eq_ok_iff, parseTask_eq_ok]
    exact ⟨plan.tasks, htasks, (), hids, (), forM_eq_ok_iff.mpr hrefs, (), hacyclic, rfl⟩

/-- Every task of a well-formed plan comes from a row. -/
theorem WellFormed.exists_row {value : Json} {sources : List Str} {maxTasks : ℕ}
    {tiers : List Tier} {plan : Plan} (h : WellFormed value sources maxTasks tiers plan)
    {task : Task} (ht : task ∈ plan.tasks) : ∃ version row, RowOf version tiers row task := by
  obtain ⟨version, rows, -, -, -, hrows⟩ := h.rows
  obtain ⟨n, hn, rfl⟩ := List.getElem_of_mem ht
  exact ⟨version, _, hrows.get (by rw [hrows.length_eq]; exact hn) hn⟩

/-- **The reader accepts exactly the well-formed plans**: its loop comes to an end within as
many turns as there are tasks, it returns the plan a value describes, and for any other value
it raises a `ValidationError`. -/
theorem parse_correct (value : Json) (sources : List Str) (maxTasks : ℕ) (tiers : List Tier) :
    (∀ (tasks : List Task) (more : ℕ), checkAcyclic tasks (tasks.length + more) [] =
      some (refuseCycles tasks)) ∧
    (∀ e, parse value sources maxTasks tiers = .error e → e.cls = .validation) ∧
    ∀ plan, parse value sources maxTasks tiers = .ok plan ↔
      WellFormed value sources maxTasks tiers plan :=
  ⟨fun _ more => checkAcyclic_add checkAcyclic_eq_some more,
    fun e he => by
      obtain ⟨msg, rfl⟩ := raises_parse value sources maxTasks tiers e he
      rfl,
    fun _ => parse_eq_ok_iff⟩

end Plan

end HorizonRelay
