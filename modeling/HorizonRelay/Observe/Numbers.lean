import HorizonRelay.Observe.Picture

/-!
# Every call has a place of its own

The record of a call says which step it was made for and the number of the attempt there.
The main flow counts the answers of a local model and the plans, a task counts its attempts,
and neither ever counts backwards, so no two calls of a run have the same place.

## Main definitions

* `MainPhase.Next`, `TaskPhase.Next` — what an expected event makes of a phase.
* `Key.place` — the step of a call, and the number of the attempt.
* `Progress.Past` — the phases have come past a call.

## Main results

* `Progress.Accepts.places` — the calls told to be finished have different places.
* `Progress.Begun.after` — an attempt that was begun, judged or not, is not forgotten.
-/

namespace HorizonRelay

open Py

/-! ## Phases -/

/-- The steps of the main flow, given the local models seen so far. -/
inductive MainPhase.Next (seen : List Tier) : MainPhase → MainPhase → Prop
  | start : Next seen .begun .opened
  | extract : Next seen .opened .extracting
  | extracted : Next seen .extracting .extracted
  | refuse : Next seen .extracted .routing
  | skip {p : MainPhase} (h : p = .opened ∨ p = .routing) : Next seen p .routing
  | solve {p : MainPhase} (h : p = .opened ∨ p = .routing) (t : Tier) (ht : t ∉ seen) :
      Next seen p (.judging t 0)
  | solved (t : Tier) (n : ℕ) : Next seen (.judging t n) (.sampled t n)
  | sample (t : Tier) (n : ℕ) : Next seen (.sampled t n) (.judging t (n + 1))
  | critique (t : Tier) (n : ℕ) : Next seen (.judging t n) (.critiquing t n)
  | critiqued (t : Tier) (n : ℕ) : Next seen (.critiquing t n) (.critiqued t n)
  | verdict {p q : MainPhase} (t : Tier) (n : ℕ) (h : p = .judging t n ∨ p = .critiqued t n)
      (hq : q = .routing ∨ q = .trusted t) : Next seen p q
  | accept {p : MainPhase} (h : p = .extracted ∨ ∃ t, p = .trusted t) : Next seen p .accepted
  | escalate {p q : MainPhase} (h : p = .opened ∨ p = .routing)
      (hq : q = .planning 0 ∨ q = .direct) : Next seen p q
  | ask : Next seen .direct .answering
  | drafted (n : ℕ) : Next seen (.planning n) (.drafted n)
  | invalid (n : ℕ) : Next seen (.drafted n) (.planning (n + 1))
  | planned (n : ℕ) : Next seen (.drafted n) .planned
  | synthesize : Next seen .planned .synthesizing
  | answered {p : MainPhase} (h : p = .answering ∨ p = .synthesizing) : Next seen p .answered
  | complete {p : MainPhase} (h : p = .answered ∨ p = .accepted) : Next seen p .completed
  | stop {p : MainPhase} (h : p ≠ .stopped) : Next seen p .stopped

/-- The steps of a task. -/
inductive TaskPhase.Next : TaskPhase → TaskPhase → Prop
  | move (t t' : Tier) (n : ℕ) : Next (.next t n) (.next t' n)
  | start (t : Tier) (n : ℕ) : Next (.next t n) (.calling t n)
  | called (t : Tier) (n : ℕ) : Next (.calling t n) (.called t n)
  | refuse (t : Tier) (n : ℕ) : Next (.called t n) (.next t (n + 1))
  | accept (t : Tier) (n : ℕ) : Next (.called t n) (.done t)

namespace Progress

variable {p : Progress} {d : EventData} {ds : List EventData} {id : Str} {r : CallRecord}
  {key : Key} {s : Step} {n : ℕ}

/-- The end of a call moves the phase it was in progress in. -/
theorem Calling.next (h : p.Calling r.key) : p.main.finish r.slot = p.main ∨
    MainPhase.Next p.seen p.main (p.main.finish r.slot) := by
  simp only [Calling, CallRecord.key] at h
  cases hs : r.slot <;> rw [hs] at h
  case work i n => exact .inl (by cases p.main <;> rfl)
  case judge t n =>
    obtain ⟨k, -, h | h⟩ := h
    · exact .inr (h ▸ .solved t k)
    · exact .inr (h ▸ .critiqued t k)
  case plan n =>
    obtain ⟨k, -, h⟩ := h
    exact .inr (h ▸ .drafted k)
  case extract => exact .inr (h ▸ .extracted)
  case answer => exact .inr (h ▸ .answered (.inl rfl))
  case synthesize => exact .inr (h ▸ .answered (.inr rfl))

/-- **An expected event leaves the main flow where it is, or takes one of its steps.** -/
theorem Expects.main_next (h : p.Expects d) :
    (p.after d).main = p.main ∨ MainPhase.Next p.seen p.main (p.after d).main := by
  have hrun := h.1
  have ha := h.allows
  cases d with
  | providerNotice | taskEscalated | taskStarted | taskInvalid | taskCompleted | callOutput =>
      exact .inl rfl
  | callFinished r => exact Calling.next ha.1
  | runStarted =>
      have ha : p.main = .begun := ha
      exact .inr (ha ▸ .start)
  | localAttempt =>
      have ha : p.main = .opened := ha
      exact .inr (ha ▸ .extract)
  | extractFailed =>
      have ha : p.main = .extracted := ha
      exact .inr (ha ▸ .refuse)
  | localSkipped t => exact .inr (.skip ha.1)
  | localSolve t => exact .inr (.solve ha.1 t ha.2)
  | localSample t =>
      obtain ⟨k, rfl, ha⟩ : ∃ k, _ = k + 1 ∧ p.main = .sampled t k := ha
      exact .inr (ha ▸ .sample t k)
  | localCritique t =>
      obtain ⟨k, ha⟩ : ∃ k, p.main = .judging t (k + 1) := ha
      right
      change MainPhase.Next _ p.main p.main.critique
      exact ha ▸ .critique t (k + 1)
  | localVerdict t v w =>
      obtain ⟨k, hk⟩ : ∃ k, p.main = .judging t k ∨ p.main = .critiqued t k := by
        change if v.critique.skipped = true then _ else _ at ha
        split at ha
        · exact ha.imp fun _ => .inl
        · exact ha.imp fun _ => .inr
      refine .inr (.verdict t k hk ?_)
      change (if v.escalate then MainPhase.routing else .trusted t) = _ ∨
        (if v.escalate then MainPhase.routing else .trusted t) = _
      split
      · exact .inl rfl
      · exact .inr rfl
  | localAccepted t =>
      have ha : (p.main = .extracted ∧ t = .small) ∨ p.main = .trusted t := ha
      exact .inr (.accept (ha.imp And.left fun h => ⟨t, h⟩))
  | escalated t mode =>
      refine .inr (.escalate ha ?_)
      change (if mode = .plan then MainPhase.planning 0 else .direct) = _ ∨
        (if mode = .plan then MainPhase.planning 0 else .direct) = _
      split
      · exact .inl rfl
      · exact .inr rfl
  | answering =>
      have ha : p.main = .direct := ha
      exact .inr (ha ▸ .ask)
  | planInvalid =>
      obtain ⟨k, rfl, ha⟩ : ∃ k, _ = k + 1 ∧ p.main = .drafted k := ha
      exact .inr (ha ▸ .invalid k)
  | planCreated =>
      obtain ⟨k, hk⟩ := ha.1
      exact .inr (hk ▸ .planned k)
  | synthesizing =>
      obtain ⟨hmain, -⟩ := ha
      exact .inr (hmain ▸ .synthesize)
  | runCompleted => exact .inr (.complete ha.1)
  | runFailed | runCancelled => exact .inr (.stop hrun)

/-- **An expected event leaves a task where it is, or takes one of its steps**, once the plan
has put it somewhere. -/
theorem Expects.task_next (h : p.Expects d) {ph : TaskPhase} (hid : p.tasks id = some ph)
    (hp : p.Planned) : (p.after d).tasks id = some ph ∨
      ∃ ph', (p.after d).tasks id = some ph' ∧ TaskPhase.Next ph ph' := by
  by_cases hd : d.teller = .task id
  · right
    have ha := h.allows
    change ∃ ph', tasksAfter p.tasks d id = some ph' ∧ _
    cases d with
    | taskEscalated i t told n =>
        cases hd
        obtain ⟨ha, -⟩ : p.tasks id = some (.next told n) ∧ t ≠ told := ha
        obtain rfl := Option.some.inj (hid.symm.trans ha)
        exact ⟨_, Function.update_self _ _ _, .move told t n⟩
    | taskStarted i t n =>
        cases hd
        have ha : p.tasks id = some (.next t n) := ha
        obtain rfl := Option.some.inj (hid.symm.trans ha)
        exact ⟨_, Function.update_self _ _ _, .start t n⟩
    | taskInvalid i t n =>
        cases hd
        have ha : p.tasks id = some (.called t n) := ha
        obtain rfl := Option.some.inj (hid.symm.trans ha)
        exact ⟨_, Function.update_self _ _ _, .refuse t n⟩
    | taskCompleted i t n =>
        cases hd
        have ha : p.tasks id = some (.called t n) := ha
        obtain rfl := Option.some.inj (hid.symm.trans ha)
        exact ⟨_, Function.update_self _ _ _, .accept t n⟩
    | callFinished r =>
        have hc : p.Calling r.key := ha.1
        simp only [EventData.teller] at hd
        simp only [Calling, CallRecord.key] at hc
        cases hs : r.slot with
        | work i n =>
            rw [hs] at hc hd
            cases hd
            obtain rfl := Option.some.inj (hid.symm.trans hc)
            refine ⟨.called r.tier n, ?_, .called r.tier n⟩
            simp [tasksAfter, hs]
        | _ => simp [hs] at hd
    | _ => cases hd
  · left
    have hadmits : p.Admits False d := .inl h
    rw [(SameTask.after hp hadmits hd (by rw [hid]; rfl)).task, hid]

end Progress

/-! ## Places -/

/-- Where a call stands in its run: its step, and the number of the attempt there. -/
def Key.place (k : Key) : Step × ℕ := (k.step, k.slot.number)

/-- The main flow has come past answer `n` of a local model. -/
def MainPhase.PastJudge (t : Tier) (n : ℕ) : MainPhase → Prop
  | .judging t' k | .critiquing t' k => t' = t → n ≤ k
  | .sampled t' k | .critiqued t' k => t' = t → n ≤ k + 1
  | _ => True

/-- The main flow has come past plan `n`. -/
def MainPhase.PastPlan (n : ℕ) : MainPhase → Prop
  | .planning k => n ≤ k
  | .drafted k => n ≤ k + 1
  | .planned | .synthesizing | .answered | .completed | .stopped => True
  | _ => False

def MainPhase.PastExtract : MainPhase → Prop
  | .begun | .opened | .extracting => False
  | _ => True

def MainPhase.PastAnswer : MainPhase → Prop
  | .answered | .completed | .stopped => True
  | _ => False

/-- The task has come past attempt `n`. -/
def TaskPhase.Past (n : ℕ) : TaskPhase → Prop
  | .next _ m | .calling _ m => n < m
  | .called _ m => n ≤ m
  | .done _ => True

namespace Progress

variable {late : Prop} {p : Progress} {d : EventData} {ds : List EventData} {id : Str}
  {r : CallRecord} {key key' : Key} {s : Step} {n : ℕ}

/-- The run has come past a call. -/
def Past (p : Progress) (key : Key) : Prop :=
  match key.slot with
  | .extract => p.main.PastExtract
  | .judge t n => t ∈ p.seen ∧ p.main.PastJudge t n
  | .plan n => p.main.PastPlan n
  | .answer | .synthesize => p.main.PastAnswer
  | .work id n => ∃ ph, p.tasks id = some ph ∧ ph.Past n

end Progress

/-- The main flow never comes back. -/
theorem MainPhase.Next.past {seen : List Tier} {p q : MainPhase} (h : MainPhase.Next seen p q) :
    (p.PastExtract → q.PastExtract) ∧ (∀ n, p.PastPlan n → q.PastPlan n) ∧
      (p.PastAnswer → q.PastAnswer) := by
  cases h with
  | start | extract | extracted | refuse | solved | sample | critique | critiqued | ask | planned
  | synthesize | stop => simp [PastExtract, PastPlan, PastAnswer]
  | drafted | invalid =>
      simp only [PastExtract, PastPlan, PastAnswer]
      refine ⟨id, fun m hm => ?_, id⟩
      omega
  | skip h | solve h => rcases h with rfl | rfl <;> simp [PastExtract, PastPlan, PastAnswer]
  | verdict t n h hq =>
      rcases h with rfl | rfl <;> rcases hq with rfl | rfl <;>
        simp [PastExtract, PastPlan, PastAnswer]
  | accept h => rcases h with rfl | ⟨t, rfl⟩ <;> simp [PastExtract, PastPlan, PastAnswer]
  | escalate h hq =>
      rcases h with rfl | rfl <;> rcases hq with rfl | rfl <;>
        simp [PastExtract, PastPlan, PastAnswer]
  | answered h | complete h =>
      rcases h with rfl | rfl <;> simp [PastExtract, PastPlan, PastAnswer]

/-- A local model that was seen is not asked from the start again. -/
theorem MainPhase.Next.pastJudge {seen : List Tier} {p q : MainPhase}
    (h : MainPhase.Next seen p q) {t : Tier} {n : ℕ} (ht : t ∈ seen) (hp : p.PastJudge t n) :
    q.PastJudge t n := by
  cases h with
  | solve _ t' ht' =>
      rintro rfl
      exact absurd ht ht'
  | solved | sample | critique | critiqued =>
      intro heq
      have := hp heq
      omega
  | verdict _ _ _ hq | escalate _ hq => rcases hq with rfl | rfl <;> trivial
  | _ => trivial

theorem TaskPhase.Next.past {p q : TaskPhase} {n : ℕ} (h : TaskPhase.Next p q) (hn : p.Past n) :
    q.Past n := by
  cases h <;> simp only [TaskPhase.Past] at hn ⊢ <;> omega

namespace Progress

variable {late : Prop} {p : Progress} {d : EventData} {ds : List EventData} {id : Str}
  {r : CallRecord} {key key' : Key} {s : Step} {n : ℕ}

theorem mem_seen_after {t : Tier} (h : t ∈ p.seen) : t ∈ (p.after d).seen := by
  cases d with
  | localSkipped | localSolve => exact List.mem_append_left _ h
  | _ => exact h

/-- What lies behind a run stays behind it. -/
theorem Past.after (h : p.Past key) (hp : p.Planned) (he : p.Expects d) : (p.after d).Past key := by
  unfold Past at h ⊢
  obtain ⟨slot, tier⟩ := key
  have hmain := he.main_next
  cases slot with
  | work i n =>
      obtain ⟨ph, hph, hn⟩ := h
      obtain hsame | ⟨ph', hph', hnext⟩ := he.task_next hph hp
      · exact ⟨ph, hsame, hn⟩
      · exact ⟨ph', hph', hnext.past hn⟩
  | extract =>
      rcases hmain with hsame | hnext
      · exact hsame ▸ h
      · exact hnext.past.1 h
  | plan n =>
      rcases hmain with hsame | hnext
      · exact hsame ▸ h
      · exact hnext.past.2.1 n h
  | answer | synthesize =>
      rcases hmain with hsame | hnext
      · exact hsame ▸ h
      · exact hnext.past.2.2 h
  | judge t n =>
      refine ⟨mem_seen_after h.1, ?_⟩
      rcases hmain with hsame | hnext
      · exact hsame ▸ h.2
      · exact hnext.pastJudge h.1 h.2

theorem judging?_finish (ph : MainPhase) (slot : Slot) :
    (ph.finish slot).judging? = ph.judging? := by
  cases ph <;> cases slot <;> rfl

/-- The local model that is judged was seen. By induction on the events. -/
theorem Accepts.seen (h : Accepts late ds) :
    ∀ t n, (of ds).main.judging? = some (t, n) → t ∈ (of ds).seen := by
  induction h with
  | nil => intro t n hj; cases hj
  | @concat ds d h he ih =>
      rw [of_concat]
      generalize of ds = p at he ih
      rcases he with he | ⟨-, he⟩
      swap
      · rw [he.after]
        exact ih
      intro t n hj
      cases d with
      | localSolve t' =>
          obtain ⟨rfl, -⟩ : t' = t ∧ 0 = n := by
            simpa [Progress.after, MainPhase.after, MainPhase.judging?] using hj
          exact List.mem_append_right _ (List.mem_singleton_self _)
      | localSample t' m a =>
          obtain ⟨k, rfl, hmain⟩ : ∃ k, m = k + 1 ∧ p.main = .sampled t' k := he.allows
          obtain ⟨rfl, -⟩ : t' = t ∧ k + 1 = n := by
            simpa [Progress.after, MainPhase.after, MainPhase.judging?] using hj
          exact ih t' k (by rw [hmain]; rfl)
      | localCritique t' =>
          obtain ⟨k, hmain⟩ : ∃ k, p.main = .judging t' (k + 1) := he.allows
          refine ih t n ?_
          change p.main.critique.judging? = _ at hj
          rw [hmain] at hj ⊢
          exact hj
      | callFinished r =>
          change (p.main.finish r.slot).judging? = _ at hj
          rw [judging?_finish] at hj
          exact ih t n hj
      | localVerdict | escalated =>
          change (if _ then _ else _ : MainPhase).judging? = _ at hj
          split at hj <;> cases hj
      | providerNotice | taskEscalated | taskStarted | taskInvalid | taskCompleted | callOutput =>
          exact ih t n hj
      | _ => cases hj

/-- The step of a call the run has come to. -/
def Met (p : Progress) (key : Key) : Prop :=
  match key.slot with
  | .judge t _ => t ∈ p.seen
  | .work i _ => (p.tasks i).isSome
  | _ => True

theorem Calling.met (h : p.Calling key)
    (hseen : ∀ t n, p.main.judging? = some (t, n) → t ∈ p.seen) : p.Met key := by
  obtain ⟨slot, tier⟩ := key
  cases slot with
  | judge t n =>
      obtain ⟨k, -, hmain | hmain⟩ := h
      · exact hseen t k (by rw [hmain]; rfl)
      · exact hseen t k (by rw [hmain]; rfl)
  | work i n =>
      have h : p.tasks i = some (.calling tier n) := h
      change (p.tasks i).isSome
      rw [h]
      rfl
  | _ => trivial

theorem Met.after (h : p.Met key) (hp : p.Planned) (he : p.Expects d) : (p.after d).Met key := by
  obtain ⟨slot, tier⟩ := key
  cases slot with
  | judge t n => exact mem_seen_after h
  | work i n =>
      have h : (p.tasks i).isSome := h
      refine isSome_after h ?_
      rintro tasks s rfl
      rw [hp.tasks_eq_none he i] at h
      cases h
  | _ => trivial

/-- The calls whose output was told are calls of steps the run has come to. By induction on the
events. -/
theorem Accepts.met (h : Accepts late ds) : ∀ key ∈ (of ds).outputs, (of ds).Met key := by
  induction h with
  | nil => simp [of]
  | @concat ds d h he ih =>
      have hplanned := h.planned
      have hseen := h.seen
      rw [of_concat]
      generalize of ds = p at he ih hplanned hseen
      rcases he with he | ⟨-, he⟩
      · intro key hkey
        rcases mem_outputs_after.mp hkey with hkey | ⟨r, o, n, rfl, rfl⟩
        · exact (ih key hkey).after hplanned he
        · exact (he.allows.1.met hseen).after hplanned he
      · rw [he.after]
        exact ih

/-- A call in progress has a place the run has not come past. -/
theorem Calling.place_ne (h : p.Calling key) (hpast : p.Past key') : key'.place ≠ key.place := by
  obtain ⟨slot, tier⟩ := key
  obtain ⟨slot', tier'⟩ := key'
  intro hplace
  obtain ⟨hstep, hnumber⟩ := Prod.mk.injEq .. ▸ hplace
  simp only [Calling] at h
  simp only [Past] at hpast
  cases slot <;> cases slot' <;>
    simp only [Key.step, Slot.step, Slot.number, reduceCtorEq, Step.judge.injEq, Step.task.injEq]
      at hstep hnumber
  case extract.extract =>
    rw [h] at hpast
    exact hpast
  case judge.judge t n t' n' =>
    subst hstep hnumber
    obtain ⟨k, rfl, hmain | hmain⟩ := h
    · have := hmain ▸ hpast.2
      exact absurd (this rfl) (by omega)
    · have := hmain ▸ hpast.2
      exact absurd (this rfl) (by omega)
  case plan.plan n n' =>
    subst hnumber
    obtain ⟨k, rfl, hmain⟩ := h
    rw [hmain] at hpast
    exact absurd hpast (by simp [MainPhase.PastPlan])
  case work.work i n i' n' =>
    obtain ⟨rfl, -⟩ := hstep
    subst hnumber
    obtain ⟨ph, hph, hn⟩ := hpast
    obtain rfl := Option.some.inj (hph.symm.trans h)
    exact absurd hn (by simp [TaskPhase.Past])
  all_goals
    rw [h] at hpast
    exact hpast

/-- The end of a call that is told leaves the run past the call. -/
theorem Expects.past_finished (h : p.Expects (.callFinished r))
    (hseen : ∀ t n, p.main.judging? = some (t, n) → t ∈ p.seen) :
    (p.after (.callFinished r)).Past r.key := by
  have hc : p.Calling r.key := h.allows.1
  simp only [Calling, CallRecord.key] at hc
  unfold Past
  simp only [CallRecord.key]
  change match r.slot with
    | .extract => (p.main.finish r.slot).PastExtract
    | .judge t n => t ∈ p.seen ∧ (p.main.finish r.slot).PastJudge t n
    | .plan n => (p.main.finish r.slot).PastPlan n
    | .answer | .synthesize => (p.main.finish r.slot).PastAnswer
    | .work id n => ∃ ph, tasksAfter p.tasks (.callFinished r) id = some ph ∧ ph.Past n
  cases hs : r.slot <;> rw [hs] at hc
  case work i n =>
    refine ⟨.called r.tier n, ?_, le_refl n⟩
    simp [tasksAfter, hs]
  case judge t n =>
    obtain ⟨k, rfl, hmain | hmain⟩ := hc
    · refine ⟨hseen t k (by rw [hmain]; rfl), ?_⟩
      rw [hmain]
      exact fun _ => le_rfl
    · refine ⟨hseen t k (by rw [hmain]; rfl), ?_⟩
      rw [hmain]
      exact fun _ => le_rfl
  case plan n =>
    obtain ⟨k, rfl, hmain⟩ := hc
    rw [hmain]
    exact le_refl (k + 1)
  all_goals
    rw [hc]
    trivial

/-- **Calls have places of their own.** The run has come past every call told to be finished,
and no two of them have the same place. By induction on the events. -/
theorem Accepts.places (h : Accepts late ds) :
    (∀ key ∈ (of ds).finished, (of ds).Past key) ∧ ((of ds).finished.map Key.place).Nodup := by
  induction h with
  | nil => simp [of]
  | @concat ds d h he ih =>
      have hplanned := h.planned
      have hseen := h.seen
      rw [of_concat]
      generalize of ds = p at he ih hplanned hseen
      rcases he with he | ⟨-, he⟩
      swap
      · rw [he.after]
        exact ih
      obtain ⟨hpast, hnodup⟩ := ih
      refine ⟨fun key hkey => ?_, ?_⟩
      · rcases mem_finished_after.mp hkey with hkey | ⟨r, rfl, rfl⟩
        · exact (hpast key hkey).after hplanned he
        · exact he.past_finished hseen
      · cases d with
        | callFinished r =>
            have hc : p.Calling r.key := he.allows.1
            change ((p.finished ++ [r.key]).map Key.place).Nodup
            rw [List.map_append, List.map_singleton]
            refine List.nodup_append.mpr ⟨hnodup, List.nodup_singleton _, ?_⟩
            intro place hplace place' hplace'
            obtain ⟨key, hkey, rfl⟩ := List.mem_map.mp hplace
            obtain rfl := List.mem_singleton.mp hplace'
            exact hc.place_ne (hpast key hkey)
        | _ => exact hnodup

end Progress

/-! ## Attempts that were begun -/

/-- The attempt whose call has just ended. -/
def MainPhase.ended? : MainPhase → Option (Step × ℕ)
  | .extracted => some (.triage, 1)
  | .sampled t n | .critiqued t n => some (.judge t, n + 1)
  | .drafted n => some (.plan, n + 1)
  | _ => none

def TaskPhase.ended? : TaskPhase → Option (Tier × ℕ)
  | .called t n => some (t, n)
  | _ => none

/-- An attempt is judged once its call ended, unless the run stops. -/
theorem MainPhase.Next.trying {seen : List Tier} {p q : MainPhase} (h : MainPhase.Next seen p q)
    {place : Step × ℕ} (hp : p.trying = some place) :
    q.trying = some place ∨ p.ended? = some place ∨ q.ended? = some place ∨ q = .stopped := by
  cases h with
  | stop => exact .inr (.inr (.inr rfl))
  | extracted => exact .inr (.inr (.inl hp))
  | critiqued => exact .inl hp
  | sample => exact .inr (.inl hp)
  | verdict t n h =>
      rcases h with rfl | rfl
      · cases hp
      · exact .inr (.inl hp)
  | accept h => rcases h with rfl | ⟨t, rfl⟩ <;> cases hp
  | skip h | solve h | escalate h | answered h | complete h => rcases h with rfl | rfl <;> cases hp
  | _ => cases hp

theorem TaskPhase.Next.trying {p q : TaskPhase} (h : TaskPhase.Next p q) {place : Tier × ℕ}
    (hp : p.trying = some place) : q.trying = some place ∨ p.ended? = some place := by
  cases h with
  | called => exact .inl hp
  | refuse | accept => exact .inr hp
  | move | start => cases hp

namespace Progress

variable {late : Prop} {p : Progress} {d : EventData} {ds : List EventData} {id : Str}
  {r : CallRecord} {key key' : Key} {s : Step} {n : ℕ}

/-- The calls the phases say have ended were told to be finished. -/
structure Judged (p : Progress) : Prop where
  main : ∀ place, p.main.ended? = some place → ∃ key ∈ p.finished, key.place = place
  task : ∀ id t n, (p.tasks id).bind TaskPhase.ended? = some (t, n) →
    ∃ key ∈ p.finished, key.place = (.task id t, n)

/-- The end of a call is what the main flow waited for. -/
theorem Calling.ended?_finish (h : p.Calling key) {place : Step × ℕ}
    (hplace : (p.main.finish key.slot).ended? = some place) :
    p.main.ended? = some place ∨ key.place = place := by
  obtain ⟨slot, tier⟩ := key
  simp only [Calling] at h
  cases slot with
  | work i n => exact .inl (by rw [← hplace]; cases p.main <;> rfl)
  | judge t n =>
      obtain ⟨k, rfl, h | h⟩ := h <;> rw [h] at hplace <;> cases hplace <;> exact .inr rfl
  | plan n =>
      obtain ⟨k, rfl, h⟩ := h
      rw [h] at hplace
      cases hplace
      exact .inr rfl
  | extract =>
      rw [h] at hplace
      cases hplace
      exact .inr rfl
  | answer | synthesize =>
      rw [h] at hplace
      cases hplace

theorem finished_subset_after (h : key ∈ p.finished) : key ∈ (p.after d).finished :=
  mem_finished_after.mpr (.inl h)

theorem Judged.after (h : p.Judged) (he : p.Expects d) : (p.after d).Judged where
  main place hplace := by
    suffices hcases : p.main.ended? = some place ∨ ∃ r, d = .callFinished r ∧ r.key.place = place by
      rcases hcases with hold | ⟨r, hr, hrplace⟩
      · obtain ⟨key, hkey, hk⟩ := h.main place hold
        exact ⟨key, finished_subset_after hkey, hk⟩
      · exact ⟨r.key, mem_finished_after.mpr (.inr ⟨r, hr, rfl⟩), hrplace⟩
    cases d with
    | callFinished r =>
        have hc : p.Calling r.key := he.allows.1
        exact (hc.ended?_finish hplace).imp_right fun hk => ⟨r, rfl, hk⟩
    | localCritique t =>
        obtain ⟨k, hmain⟩ : ∃ k, p.main = .judging t (k + 1) := he.allows
        change p.main.critique.ended? = _ at hplace
        rw [hmain] at hplace
        cases hplace
    | localVerdict | escalated =>
        change (if _ then _ else _ : MainPhase).ended? = _ at hplace
        split at hplace <;> cases hplace
    | providerNotice | taskEscalated | taskStarted | taskInvalid | taskCompleted | callOutput =>
        exact .inl hplace
    | _ => cases hplace
  task id t n ht := by
    suffices hcases : (p.tasks id).bind TaskPhase.ended? = some (t, n) ∨
        ∃ r, d = .callFinished r ∧ r.key.place = (.task id t, n) by
      rcases hcases with hold | ⟨r, hr, hrplace⟩
      · obtain ⟨key, hkey, hk⟩ := h.task id t n hold
        exact ⟨key, finished_subset_after hkey, hk⟩
      · exact ⟨r.key, mem_finished_after.mpr (.inr ⟨r, hr, rfl⟩), hrplace⟩
    by_cases hd : d.teller = .task id
    · right
      change (tasksAfter p.tasks d id).bind _ = _ at ht
      cases d with
      | taskEscalated | taskStarted | taskInvalid | taskCompleted =>
          cases hd
          simp [tasksAfter, TaskPhase.ended?] at ht
      | callFinished r =>
          simp only [EventData.teller] at hd
          cases hs : r.slot with
          | work i m =>
              rw [hs] at hd
              cases hd
              obtain ⟨rfl, rfl⟩ : r.tier = t ∧ m = n := by
                simpa [tasksAfter, hs, TaskPhase.ended?] using ht
              exact ⟨r, rfl, by
                simp [Key.place, Key.step, CallRecord.key, hs, Slot.step, Slot.number]⟩
          | _ => simp [hs] at hd
      | _ => cases hd
    · left
      by_cases hplan : ∃ tasks s, d = .planCreated tasks s
      · obtain ⟨tasks, s, rfl⟩ := hplan
        change (startPhases tasks id).bind _ = _ at ht
        obtain ⟨ph, hph, hended⟩ := Option.bind_eq_some_iff.mp ht
        obtain ⟨u, -, rfl⟩ := Option.map_eq_some_iff.mp hph
        cases hended
      · rwa [tasks_after_of_ne hd fun tasks s h => hplan ⟨tasks, s, h⟩] at ht

/-- Attempt `n` at a step was begun: its call ended, is still to come or has written something. -/
def Begun (p : Progress) (n : ℕ) (s : Step) : Prop :=
  (∃ key ∈ p.finished, key.place = (s, n)) ∨ p.Trying n s ∨ ∃ key ∈ p.outputs, key.place = (s, n)

/-- The phases judge only calls that ended. By induction on the events. -/
theorem Accepts.judged (h : Accepts late ds) : Judged (of ds) := by
  induction h with
  | nil => exact ⟨nofun, nofun⟩
  | concat _ he ih =>
      rw [of_concat]
      rcases he with he | ⟨-, he⟩
      · exact ih.after he
      · rw [he.after]
        exact ih

/-- **An attempt that was begun is not forgotten**, unless the run stops. -/
theorem Begun.after (h : p.Begun n s) (hp : p.Planned) (hj : p.Judged) (he : p.Expects d) :
    (p.after d).Begun n s ∨ (p.after d).main = .stopped := by
  have hjudged := hj.after he
  have hdone : ∀ {place}, (∃ key ∈ p.finished, key.place = place) →
      ∃ key ∈ (p.after d).finished, key.place = place :=
    fun ⟨key, hkey, hk⟩ => ⟨key, finished_subset_after hkey, hk⟩
  rcases h with hended | (htrying | ⟨i, t, rfl, ht⟩) | ⟨key, hkey, hplace⟩
  · exact .inl (.inl (hdone hended))
  · rcases he.main_next with hsame | hnext
    · exact .inl (.inr (.inl (.inl (by rw [hsame, htrying]))))
    · rcases hnext.trying htrying with htry | hended | hended | hstop
      · exact .inl (.inr (.inl (.inl htry)))
      · exact .inl (.inl (hdone (hj.main _ hended)))
      · exact .inl (.inl (hjudged.main _ hended))
      · exact .inr hstop
  · left
    obtain ⟨ph, hph, htry⟩ := Option.bind_eq_some_iff.mp ht
    rcases he.task_next hph hp with hsame | ⟨ph', hph', hnext⟩
    · exact .inr (.inl (.inr ⟨i, t, rfl, by rw [hsame]; exact htry⟩))
    · rcases hnext.trying htry with htry | hended
      · exact .inr (.inl (.inr ⟨i, t, rfl, by rw [hph']; exact htry⟩))
      · exact .inl (hdone (hj.task i t n (by rw [hph]; exact hended)))
  · exact .inl (.inr (.inr ⟨key, mem_outputs_after.mpr (.inl hkey), hplace⟩))

end Progress

end HorizonRelay
