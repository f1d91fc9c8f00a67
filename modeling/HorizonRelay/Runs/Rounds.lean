import HorizonRelay.Graph
import HorizonRelay.Satisfiable
import Mathlib.Data.List.MinMax

/-!
# Rounds, batches and turns

Three loops find the layers of a plan's dependencies: the reader's, which resolves tasks
until all are; `run_tasks`, which runs them batch by batch; and the graph's, which tells
each task its round.  They agree.

## Main definitions

* `resolvedAfter` — what the reader's loop has resolved after some turns.
* `returning` — an environment in which every worker returns a value.

## Main results

* `mem_peel_resolvedAfter`, `exists_planRounds`, `wp_runTasks_returning` — the three loops.
* `rounds_agree` — the round of a task is the number of its batch, and of the turn that
  resolves it.
-/

namespace HorizonRelay

open Py Coop Layers

/-! ## The reader's loop -/

namespace Plan

variable {tasks : List Task}

/-- What the reader's loop has resolved after `n` turns. -/
def resolvedAfter (tasks : List Task) : ℕ → List Str
  | 0 => []
  | n + 1 => resolvedAfter tasks n ++ peel tasks (resolvedAfter tasks n)

/-- One turn of the loop, while it goes on: some task left waits for none that is left. -/
theorem checkAcyclic_resolvedAfter (hids : (tasks.map Task.id).Nodup)
    (hclosed : ∀ t ∈ tasks, ∀ d ∈ t.dependsOn, d ∈ tasks.map Task.id)
    (hacyclic : Acyclic (Needs tasks)) {n : ℕ}
    (hlt : (resolvedAfter tasks n).length < tasks.length) (turns : ℕ) :
    checkAcyclic tasks (turns + 1) (resolvedAfter tasks n) =
      checkAcyclic tasks turns (resolvedAfter tasks (n + 1)) := by
  have hleft : ∃ k ∈ tasks.map Task.id, k ∉ resolvedAfter tasks n := by
    by_contra hall
    have hsub : tasks.map Task.id ⊆ resolvedAfter tasks n := fun k hk => by
      by_contra hnot
      exact hall ⟨k, hk, hnot⟩
    have hle := (List.subperm_of_subset hids hsub).length_le
    rw [List.length_map] at hle
    omega
  obtain ⟨k, ⟨hk, hnot⟩, hmin⟩ := hacyclic.exists_minimal
    (s := {k | k ∈ tasks.map Task.id ∧ k ∉ resolvedAfter tasks n})
    ((List.finite_toSet (tasks.map Task.id)).subset fun _ h => h.1) hleft
  obtain ⟨t, ht, rfl⟩ := List.mem_map.mp hk
  have hpeel : t.id ∈ peel tasks (resolvedAfter tasks n) := by
    refine mem_peel.mpr ⟨t, ht, rfl, hnot, fun d hd => ?_⟩
    by_contra hd'
    exact hmin d ((needs_iff hids ht).mpr hd) ⟨hclosed t ht d hd, hd'⟩
  rw [checkAcyclic, if_neg (by omega)]
  split
  · rename_i h
    rw [h] at hpeel
    cases hpeel
  · rfl

/-- After `n` turns the tasks within `n` rounds are resolved. -/
theorem mem_resolvedAfter (hids : (tasks.map Task.id).Nodup) (n : ℕ) {t : Task}
    (ht : t ∈ tasks) (hclosed : ∀ t ∈ tasks, ∀ d ∈ t.dependsOn, d ∈ tasks.map Task.id) :
    t.id ∈ resolvedAfter tasks n ↔ Within (Needs tasks) n t.id := by
  induction n generalizing t with
  | zero => simp [resolvedAfter]
  | succ n ih =>
      have hdeps : (∀ d ∈ t.dependsOn, d ∈ resolvedAfter tasks n) ↔
          Within (Needs tasks) (n + 1) t.id := by
        rw [within_succ]
        refine forall_congr' fun d => ?_
        rw [needs_iff hids ht]
        refine forall_congr' fun hd => ?_
        obtain ⟨u, hu, rfl⟩ := List.mem_map.mp (hclosed t ht d hd)
        exact ih hu
      rw [resolvedAfter, List.mem_append, mem_peel, ih ht]
      constructor
      · rintro (h | ⟨u, hu, hid, -, hd⟩)
        · exact h.mono (Nat.le_succ n)
        · obtain rfl := List.inj_on_of_nodup_map hids hu ht hid
          exact hdeps.mp hd
      · intro h
        by_cases hin : Within (Needs tasks) n t.id
        · exact .inl hin
        · exact .inr ⟨t, ht, rfl, fun hmem => hin ((ih ht).mp hmem), hdeps.mpr h⟩

/-- The turn that resolves a task is the number of its layer, counted from one. -/
theorem mem_peel_resolvedAfter (hids : (tasks.map Task.id).Nodup)
    (hclosed : ∀ t ∈ tasks, ∀ d ∈ t.dependsOn, d ∈ tasks.map Task.id) {n : ℕ} {t : Task}
    (ht : t ∈ tasks) :
    t.id ∈ peel tasks (resolvedAfter tasks n) ↔ OnLayer (Needs tasks) n t.id := by
  rw [onLayer_iff, within_succ, mem_peel]
  constructor
  · rintro ⟨u, hu, hid, hnot, hd⟩
    obtain rfl := List.inj_on_of_nodup_map hids hu ht hid
    refine ⟨fun d hd' => ?_, fun h => hnot ((mem_resolvedAfter hids n hu hclosed).mpr h)⟩
    have hd' := (needs_iff hids hu).mp hd'
    obtain ⟨v, hv, rfl⟩ := List.mem_map.mp (hclosed u hu d hd')
    exact (mem_resolvedAfter hids n hv hclosed).mp (hd v.id hd')
  · rintro ⟨hd, hnot⟩
    refine ⟨t, ht, rfl, fun h => hnot ((mem_resolvedAfter hids n ht hclosed).mp h),
      fun d hd' => ?_⟩
    obtain ⟨v, hv, rfl⟩ := List.mem_map.mp (hclosed t ht d hd')
    exact (mem_resolvedAfter hids n hv hclosed).mpr (hd v.id ((needs_iff hids ht).mpr hd'))

end Plan

/-! ## The graph's loop -/

theorem le_foldr_max {l : List ℕ} {n : ℕ} (h : n ∈ l) : n ≤ l.foldr max 0 :=
  List.le_max_of_le h le_rfl

theorem foldr_max_mem (l : List ℕ) : l.foldr max 0 = 0 ∨ l.foldr max 0 ∈ l := by
  induction l with
  | nil => exact .inl rfl
  | cons n l ih =>
      rw [List.foldr_cons]
      rcases max_choice n (l.foldr max 0) with h | h
      · rw [h]
        exact .inr List.mem_cons_self
      · rw [h]
        exact ih.imp_right (List.mem_cons_of_mem _)

section Graph
variable {tasks pending ts : List Task} {rounds : Dict Str ℕ} {t : Task}

/-- Between two tasks of a pass: the tasks that have rounds are those no longer pending, and
a round is one more than the layer. -/
structure RoundsOk (tasks : List Task) (rounds : Dict Str ℕ) (pending : List Task) : Prop where
  sub : pending.Sublist tasks
  pending : ∀ t ∈ tasks, t ∈ pending ↔ t.id ∉ rounds.keys
  layer : ∀ t ∈ tasks, ∀ n, rounds.get? t.id = some n →
    ∃ k, n = k + 1 ∧ OnLayer (Plan.Needs tasks) k t.id

/-- The round of a task whose dependencies have theirs. -/
theorem RoundsOk.roundOf (h : RoundsOk tasks rounds pending)
    (hids : (tasks.map Task.id).Nodup)
    (hclosed : ∀ t ∈ tasks, ∀ d ∈ t.dependsOn, d ∈ tasks.map Task.id) (ht : t ∈ tasks)
    (hdeps : ∀ d ∈ t.dependsOn, d ∈ rounds.keys) :
    ∃ k, HorizonRelay.roundOf rounds t = k + 1 ∧ OnLayer (Plan.Needs tasks) k t.id := by
  have hdep : ∀ d ∈ t.dependsOn, ∃ k, (rounds.get? d).getD 0 = k + 1 ∧
      OnLayer (Plan.Needs tasks) k d := by
    intro d hd
    obtain ⟨n, hn⟩ := Dict.mem_keys_iff.mp (hdeps d hd)
    obtain ⟨u, hu, rfl⟩ := List.mem_map.mp (hclosed t ht d hd)
    obtain ⟨k, rfl, hk⟩ := h.layer u hu n hn
    exact ⟨k, by rw [hn, Option.getD_some], hk⟩
  refine ⟨_, Nat.add_comm _ _, onLayer_iff.mpr ⟨within_succ.mpr fun d hd => ?_, fun hin => ?_⟩⟩
  · have hd := (Plan.needs_iff hids ht).mp hd
    obtain ⟨k, hk, hlayer⟩ := hdep d hd
    refine (onLayer_iff.mp hlayer).1.mono ?_
    rw [← hk]
    exact le_foldr_max (List.mem_map_of_mem (f := fun d => (rounds.get? d).getD 0) hd)
  · rcases foldr_max_mem (t.dependsOn.map fun d => (rounds.get? d).getD 0) with h0 | hmem
    · rw [h0] at hin
      exact not_within_zero _ hin
    · obtain ⟨d, hd, heq⟩ := List.mem_map.mp hmem
      obtain ⟨k, hk, hlayer⟩ := hdep d hd
      rw [← heq, hk, within_succ] at hin
      exact (onLayer_iff.mp hlayer).2 (hin d ((Plan.needs_iff hids ht).mpr hd))

/-- A task whose dependencies have rounds gets one. -/
theorem RoundsOk.assign (h : RoundsOk tasks rounds pending) (hids : (tasks.map Task.id).Nodup)
    (hclosed : ∀ t ∈ tasks, ∀ d ∈ t.dependsOn, d ∈ tasks.map Task.id) (ht : t ∈ pending)
    (hdeps : ∀ d ∈ t.dependsOn, d ∈ rounds.keys) :
    RoundsOk tasks (rounds.set t.id (HorizonRelay.roundOf rounds t)) (pending.erase t) := by
  have htasks := h.sub.subset ht
  have hnodup : pending.Nodup := (List.Nodup.of_map Task.id hids).sublist h.sub
  refine
    { sub := List.erase_sublist.trans h.sub, pending := fun u hu => ?_
      layer := fun u hu n hn => ?_ }
  · rw [hnodup.mem_erase_iff, Dict.mem_keys_set, not_or, h.pending u hu]
    refine and_congr_left fun _ => not_congr ⟨fun h => h ▸ rfl, fun hid => ?_⟩
    exact List.inj_on_of_nodup_map hids hu htasks hid
  · rw [Dict.get?_set] at hn
    split at hn
    · rename_i hid
      obtain rfl := List.inj_on_of_nodup_map hids hu htasks hid
      rw [← Option.some.inj hn]
      exact h.roundOf hids hclosed hu hdeps
    · exact h.layer u hu n hn

/-- One pass: it keeps the rounds right, and every task of it whose dependencies had rounds at
its start has one at its end. -/
theorem RoundsOk.pass (hids : (tasks.map Task.id).Nodup)
    (hclosed : ∀ t ∈ tasks, ∀ d ∈ t.dependsOn, d ∈ tasks.map Task.id)
    (h : RoundsOk tasks rounds pending) (hts : ts ⊆ pending) (hnodup : ts.Nodup) :
    RoundsOk tasks (roundsPass ts (rounds, pending)).1 (roundsPass ts (rounds, pending)).2 ∧
      (roundsPass ts (rounds, pending)).2.Sublist pending ∧
      rounds.keys ⊆ (roundsPass ts (rounds, pending)).1.keys ∧
      ∀ t ∈ ts, (∀ d ∈ t.dependsOn, d ∈ rounds.keys) →
        t.id ∈ (roundsPass ts (rounds, pending)).1.keys := by
  induction ts generalizing rounds pending with
  | nil => exact ⟨h, .refl _, List.Subset.refl _, by simp⟩
  | cons t ts ih =>
      obtain ⟨hnot, hnodup⟩ := List.nodup_cons.mp hnodup
      have ht : t ∈ pending := hts List.mem_cons_self
      have hpending : pending.Nodup := (List.Nodup.of_map Task.id hids).sublist h.sub
      unfold roundsPass
      split
      · rename_i hdeps
        have hdeps : ∀ d ∈ t.dependsOn, d ∈ rounds.keys := by simpa using hdeps
        have hrest : ts ⊆ pending.erase t := fun u hu => hpending.mem_erase_iff.mpr
          ⟨fun heq => hnot (heq ▸ hu), hts (List.mem_cons_of_mem _ hu)⟩
        obtain ⟨hok, hsub, hkeys, hgot⟩ := ih (h.assign hids hclosed ht hdeps) hrest hnodup
        have hgrow : rounds.keys ⊆ (rounds.set t.id (HorizonRelay.roundOf rounds t)).keys :=
          fun k hk => Dict.mem_keys_set.mpr (.inr hk)
        refine ⟨hok, hsub.trans List.erase_sublist, fun k hk => hkeys (hgrow hk),
          fun u hu hd => ?_⟩
        rcases List.mem_cons.mp hu with rfl | hu
        · exact hkeys (Dict.mem_keys_set.mpr (.inl rfl))
        · exact hgot u hu fun d hd' => hgrow (hd d hd')
      · rename_i hdeps
        obtain ⟨hok, hsub, hkeys, hgot⟩ :=
          ih h (fun u hu => hts (List.mem_cons_of_mem _ hu)) hnodup
        refine ⟨hok, hsub, hkeys, fun u hu hd => ?_⟩
        rcases List.mem_cons.mp hu with rfl | hu
        · exact absurd (by simpa using hd) hdeps
        · exact hgot u hu hd

/-- A pass over tasks of an acyclic graph takes at least one of them away. -/
theorem RoundsOk.pass_lt (hids : (tasks.map Task.id).Nodup)
    (hclosed : ∀ t ∈ tasks, ∀ d ∈ t.dependsOn, d ∈ tasks.map Task.id)
    (hacyclic : Acyclic (Plan.Needs tasks)) (h : RoundsOk tasks rounds pending)
    (hne : pending ≠ []) :
    (roundsPass pending (rounds, pending)).2.length < pending.length := by
  have hnodup : pending.Nodup := (List.Nodup.of_map Task.id hids).sublist h.sub
  obtain ⟨hok, hsub, -, hgot⟩ := h.pass hids hclosed (List.Subset.refl _) hnodup
  -- a pending task that waits for no pending task
  obtain ⟨t₀, ht₀⟩ := List.exists_mem_of_ne_nil _ hne
  obtain ⟨a, ha, hmin⟩ := hacyclic.exists_minimal (s := {k | k ∈ pending.map Task.id})
    (List.finite_toSet _) ⟨t₀.id, List.mem_map_of_mem ht₀⟩
  obtain ⟨t, ht, rfl⟩ := List.mem_map.mp ha
  have htasks := h.sub.subset ht
  have hround := hgot t ht fun d hd => by
    obtain ⟨u, hu, rfl⟩ := List.mem_map.mp (hclosed t htasks d hd)
    by_contra hnot
    exact hmin u.id ((Plan.needs_iff hids htasks).mpr hd)
      (List.mem_map_of_mem ((h.pending u hu).mpr hnot))
  have hgone : t ∉ (roundsPass pending (rounds, pending)).2 :=
    fun hmem => ((hok.pending t htasks).mp hmem) hround
  refine lt_of_le_of_ne hsub.length_le fun hlen => hgone ?_
  rw [hsub.eq_of_length hlen]
  exact ht

/-- The loop ends, with the round of every task. -/
theorem RoundsOk.loop (hids : (tasks.map Task.id).Nodup)
    (hclosed : ∀ t ∈ tasks, ∀ d ∈ t.dependsOn, d ∈ tasks.map Task.id)
    (hacyclic : Acyclic (Plan.Needs tasks)) {passes : ℕ} (h : RoundsOk tasks rounds pending)
    (hpasses : pending.length ≤ passes) :
    ∃ rounds', roundsLoop passes (rounds, pending) = some rounds' ∧ RoundsOk tasks rounds' [] := by
  induction passes generalizing rounds pending with
  | zero =>
      obtain rfl : pending = [] := List.length_eq_zero_iff.mp (by omega)
      exact ⟨rounds, rfl, h⟩
  | succ passes ih =>
      cases pending with
      | nil => exact ⟨rounds, rfl, h⟩
      | cons t ts =>
          have hlt := h.pass_lt hids hclosed hacyclic (List.cons_ne_nil t ts)
          have hnodup : (t :: ts).Nodup := (List.Nodup.of_map Task.id hids).sublist h.sub
          have hok := (h.pass hids hclosed (List.Subset.refl _) hnodup).1
          exact ih hok (Nat.le_of_lt_succ (hlt.trans_le hpasses))

/-- Passes that are not needed change nothing. -/
theorem roundsLoop_more {passes : ℕ} {st : Dict Str ℕ × List Task} {rounds' : Dict Str ℕ}
    (h : roundsLoop passes st = some rounds') (more : ℕ) :
    roundsLoop (passes + more) st = some rounds' := by
  induction passes generalizing st with
  | zero =>
      obtain ⟨rounds, pending⟩ := st
      cases pending with
      | nil =>
          rw [← h]
          cases (0 + more) <;> rfl
      | cons t ts => cases h
  | succ passes ih =>
      obtain ⟨rounds, pending⟩ := st
      rw [Nat.add_right_comm]
      cases pending with
      | nil => exact h
      | cons t ts => exact ih h

/-- The graph's loop ends on every accepted plan, and a task's round is the number of its
layer, counted from one. -/
theorem exists_planRounds (hids : (tasks.map Task.id).Nodup)
    (hclosed : ∀ t ∈ tasks, ∀ d ∈ t.dependsOn, d ∈ tasks.map Task.id)
    (hacyclic : Acyclic (Plan.Needs tasks)) :
    ∃ rounds, (∀ more, roundsLoop (tasks.length + more) (.empty, tasks) = some rounds) ∧
      planRounds tasks = some rounds ∧
      ∀ t ∈ tasks, ∃ k, rounds.get? t.id = some (k + 1) ∧ OnLayer (Plan.Needs tasks) k t.id := by
  have hstart : RoundsOk tasks .empty tasks :=
    { sub := .refl _, pending := by simp [Dict.keys, Dict.empty], layer := by simp }
  obtain ⟨rounds, hloop, hok⟩ := hstart.loop hids hclosed hacyclic le_rfl
  refine ⟨rounds, roundsLoop_more hloop, hloop, fun t ht => ?_⟩
  have hkey : t.id ∈ rounds.keys := by
    by_contra hnot
    exact absurd ((hok.pending t ht).mpr hnot) (by simp)
  obtain ⟨n, hn⟩ := Dict.mem_keys_iff.mp hkey
  obtain ⟨k, rfl, hk⟩ := hok.layer t ht n hn
  exact ⟨k, hn, hk⟩

end Graph

/-! ## The batches -/

/-- An environment in which every worker returns a value, and no result is lost. -/
def returning : Terms Op Ans Run Exc where
  rely s s' := s.results.keys ⊆ s'.results.keys
  guar _ _ := True
  inv _ := True
  known _ := True
  answers
    | .gather js, s, r, s' =>
        s.results.keys ⊆ s'.results.keys ∧ ∃ values, r = .ok values ∧ values.length = js.length
    | .join _, s, r, s' => s.results.keys ⊆ s'.results.keys ∧ r = .ok ()
    | _, _, _, _ => False

section Batches
variable {p : Plan} {pending ready : List Task} {t : Task}

/-- Setting results keeps those there are, and adds those of the tasks. -/
theorem keys_setResults {entries : List (Task × Json)} {s : Run} {k : Str} :
    k ∈ (Run.setResults entries s).results.keys ↔
      k ∈ s.results.keys ∨ ∃ e ∈ entries, e.1.id = k := by
  induction entries generalizing s with
  | nil => simp [Run.setResults]
  | cons e entries ih =>
      change k ∈ (Run.setResults entries (s.setResult e.1.id e.2)).results.keys ↔ _
      rw [ih, Run.setResult, Dict.mem_keys_set]
      simp only [List.mem_cons, exists_eq_or_imp, eq_comm (a := k)]
      tauto

theorem cancelJobs_results (js : List ℕ) (s : Run) :
    (Run.cancelJobs js s).results = s.results :=
  congrArg Ledger.results (cancelJobs_toLedger js s)

/-- A batch returns, with results of its tasks. -/
theorem wp_batch_returning {s : Run} {Q : Except Exc Unit → Run → Prop}
    (hQ : ∀ s', s.results.keys ⊆ s'.results.keys → (∀ t ∈ ready, t.id ∈ s'.results.keys) →
      Q (.ok ()) s') : (batch ready).wp returning Q s := by
  unfold batch gather join ask
  simp only [Coro.wp_bind, Coro.wp_read, Coro.outcome_ok, Coro.wp_update, Coro.wp_tryFinally,
    Coro.wp_request]
  refine ⟨trivial, trivial, trivial, fun s₁ h₁ _ r s₂ h₂ => ?_⟩
  obtain ⟨h₂, values, rfl, hlen⟩ := h₂
  rw [List.length_range'] at hlen
  refine ⟨trivial, trivial, trivial, trivial, trivial, fun s₃ h₃ _ r s₄ h₄ => ⟨trivial, ?_⟩⟩
  obtain ⟨h₄, rfl⟩ := h₄
  have hset : ∀ k, k ∈ (Run.setResults (ready.zip values) s₂).results.keys →
      k ∈ s₄.results.keys := by
    intro k hk
    refine h₄ (h₃ ?_)
    change k ∈ (Run.cancelJobs _ _).results.keys
    rw [cancelJobs_results]
    exact hk
  refine hQ s₄ (fun k hk => hset k (keys_setResults.mpr (.inl (h₂ (h₁ hk))))) fun t ht => ?_
  obtain ⟨i, hi, rfl⟩ := List.getElem_of_mem ht
  refine hset _ (keys_setResults.mpr (.inr ⟨(ready[i], values[i]), ?_, rfl⟩))
  rw [← List.getElem_zip (h := by rw [List.length_zip]; omega)]
  exact List.getElem_mem _

/-- The batches of what is left return, with results of all tasks. By induction on the turns:
some task left can be run. -/
theorem wp_runBatches_returning {turns : ℕ} {s : Run} (hids : (p.tasks.map Task.id).Nodup)
    (hclosed : ∀ t ∈ p.tasks, ∀ d ∈ t.dependsOn, d ∈ p.tasks.map Task.id)
    (hacyclic : Acyclic (Plan.Needs p.tasks)) (hsub : pending.Sublist p.tasks)
    (hdone : ∀ t ∈ p.tasks, t ∉ pending → t.id ∈ s.results.keys)
    (hturns : pending.length ≤ turns) :
    (runBatches turns pending hturns).wp returning
      (Coro.outcome (fun _ s' => ∀ t ∈ p.tasks, t.id ∈ s'.results.keys) fun _ _ => False) s := by
  induction turns generalizing pending s with
  | zero =>
      obtain rfl : pending = [] := List.length_eq_zero_iff.mp (by omega)
      exact fun t ht => hdone t ht (by simp)
  | succ turns ih =>
      cases pending with
      | nil => exact fun t ht => hdone t ht (by simp)
      | cons t₀ rest =>
          have hne : readyTasks (t₀ :: rest) s.results ≠ [] := by
            obtain ⟨a, ha, hmin⟩ := hacyclic.exists_minimal
              (s := {k | k ∈ (t₀ :: rest).map Task.id}) (List.finite_toSet _)
              ⟨t₀.id, List.mem_map_of_mem List.mem_cons_self⟩
            obtain ⟨t, ht, rfl⟩ := List.mem_map.mp ha
            have htasks := hsub.subset ht
            refine List.ne_nil_of_mem (mem_readyTasks.mpr ⟨ht, fun d hd => ?_⟩)
            obtain ⟨u, hu, rfl⟩ := List.mem_map.mp (hclosed t htasks d hd)
            refine hdone u hu fun hmem => ?_
            exact hmin u.id ((Plan.needs_iff hids htasks).mpr hd) (List.mem_map_of_mem hmem)
          unfold runBatches
          rw [Coro.wp_bind, Coro.wp_read, Coro.outcome_ok]
          split
          · rename_i hnil
            exact absurd hnil hne
          · rw [Coro.wp_bind]
            refine wp_batch_returning fun s' hgrow hready => ?_
            rw [Coro.outcome_ok]
            refine ih (List.filter_sublist.trans hsub) (fun t ht hnot => ?_) _
            by_cases hr : t ∈ readyTasks (t₀ :: rest) s.results
            · exact hready t hr
            · refine hgrow (hdone t ht fun hmem => hnot (List.mem_filter.mpr ⟨hmem, ?_⟩))
              simpa using hr

/-- `run_tasks` returns when every worker does, with results of all tasks. -/
theorem wp_runTasks_returning (hids : (p.tasks.map Task.id).Nodup)
    (hclosed : ∀ t ∈ p.tasks, ∀ d ∈ t.dependsOn, d ∈ p.tasks.map Task.id)
    (hacyclic : Acyclic (Plan.Needs p.tasks)) (s : Run) :
    (runTasks p).wp returning
      (Coro.outcome (fun _ s' => ∀ t ∈ p.tasks, t.id ∈ s'.results.keys) fun _ _ => False) s :=
  wp_runBatches_returning hids hclosed hacyclic (.refl _) (fun _ ht hnot => absurd ht hnot) le_rfl

end Batches

/-! ## The three loops agree -/

/-- **The rounds of the graph are the batches of the engine.** For every accepted plan
`run_tasks` returns with results of all tasks when every worker returns a value; the graph's
loop ends, and further passes would change nothing; and the round it gives a task is one more
than the length of its longest chain of dependencies, the number of the reader's turn that
resolves it, and in every run the number of the batch that starts it. -/
theorem rounds_agree {value : Json} {sources : List Str} {maxTasks : ℕ} {tiers : List Tier}
    {p : Plan} (h : Plan.parse value sources maxTasks tiers = .ok p) :
    (∀ s, (runTasks p).wp returning
      (Coro.outcome (fun _ s' => ∀ t ∈ p.tasks, t.id ∈ s'.results.keys) fun _ _ => False) s) ∧
    (∀ n turns, (Plan.resolvedAfter p.tasks n).length < p.tasks.length →
      Plan.checkAcyclic p.tasks (turns + 1) (Plan.resolvedAfter p.tasks n) =
        Plan.checkAcyclic p.tasks turns (Plan.resolvedAfter p.tasks (n + 1))) ∧
    ∃ rounds, (∀ more, roundsLoop (p.tasks.length + more) (.empty, p.tasks) = some rounds) ∧
      planRounds p.tasks = some rounds ∧
      ∀ t ∈ p.tasks, ∃ k, rounds.get? t.id = some (k + 1) ∧
        (∀ n, OnLayer (Plan.Needs p.tasks) n t.id ↔ n = k) ∧
        (∀ n, t.id ∈ Plan.peel p.tasks (Plan.resolvedAfter p.tasks n) ↔ n = k) ∧
        ∀ (x : Setup) (c : State), x.Reachable c → c.shared.plan = some p →
          c.shared.jobs.map Job.task = c.shared.batches.flatten ∧
          ∀ (n : ℕ) (b : List Task), c.shared.batches[n]? = some b → (t ∈ b ↔ n = k) := by
  have haccepted := Plan.accepted_of_parse h
  have hacyclic := (Plan.parse_eq_ok_iff.mp h).acyclic
  obtain ⟨rounds, hmore, hrounds, hlayer⟩ :=
    exists_planRounds haccepted.ids haccepted.closed hacyclic
  refine ⟨wp_runTasks_returning haccepted.ids haccepted.closed hacyclic, fun n turns hlt =>
    Plan.checkAcyclic_resolvedAfter haccepted.ids haccepted.closed hacyclic hlt turns,
    rounds, hmore, hrounds, fun t ht => ?_⟩
  obtain ⟨k, hk, hon⟩ := hlayer t ht
  have hiff : ∀ n, OnLayer (Plan.Needs p.tasks) n t.id ↔ n = k :=
    fun n => ⟨fun h => h.unique hon, fun h => h ▸ hon⟩
  refine ⟨k, hk, hiff, fun n => ?_, fun x c hc hp => ?_⟩
  · rw [Plan.mem_peel_resolvedAfter haccepted.ids haccepted.closed ht, hiff]
  · have hbatches := hc.ok.plan.batches
    refine ⟨hbatches.tasks.symm, fun n b hb => ?_⟩
    rw [hbatches.layers p hp n b hb, hiff]
    exact and_iff_right ht

/-- A task that depends on another is in the second round. -/
theorem rounds_agree_groupedPlan :
    ∃ rounds, planRounds groupedPlan.tasks = some rounds ∧
      OnLayer (Plan.Needs groupedPlan.tasks) 1 "two".toList := by
  have hp : Plan.parse (planReply [readingRow "one" ["sources.a"] [] .reportExtraction,
      readingRow "two" ["results.one"] ["one"] .reportGroups]) planSetup.sources.keys
      planSetup.limits.maxTasks planSetup.tiers = .ok groupedPlan := by decide +kernel
  obtain ⟨-, -, rounds, -, hrounds, hall⟩ := rounds_agree hp
  obtain ⟨k, hk, hlayer, -⟩ :=
    hall (kindTask "two" ["results.one"] ["one"] .reportGroups) (by decide +kernel)
  have hround : (planRounds groupedPlan.tasks).bind (·.get? "two".toList) = some 2 := by
    decide +kernel
  rw [hrounds] at hround
  obtain rfl : 1 = k := Nat.succ.inj (Option.some.inj (hround.symm.trans hk))
  exact ⟨rounds, hrounds, (hlayer 1).mpr rfl⟩

end HorizonRelay
