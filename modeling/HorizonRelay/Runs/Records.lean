import HorizonRelay.Runs.Writes

/-!
# The details of events

The protocol of events does not look at all of their details.  An event about a model call
shows the record of a call of the run, so its fields are those of the call's request, and an
event about an escalation says whether the cloud plans or answers.  No write of any task
breaks this, and nothing else need be known of the writes.

## Main definitions

* `EventData.Proper` — an event with such details.
* `Run.Recorded` — all events handed out are proper.

## Main results

* `Setup.Reachable.recorded` — it holds of every run.
-/

namespace HorizonRelay

open Py Coop

/-- The record shown is that of a call; who answers in the cloud is decided. -/
def EventData.Proper : EventData → Prop
  | .callFinished r | .callOutput r .. => ∃ c : Call, c.Recorded ∧ c.record = r
  | .escalated _ mode .. => mode ≠ .auto
  | _ => True

/-- The records of the calls name their calls, and events show no other records. -/
structure Run.Recorded (s : Run) : Prop where
  calls : ∀ c ∈ s.calls, c.Recorded
  told : ∀ d ∈ told s.log, d.Proper

variable {x : Setup} {s : Run} {k : ℕ}

theorem recorded_empty : Run.Recorded {} := ⟨by simp, by simp [told, handed]⟩

theorem Run.Recorded.at (h : s.Recorded) {r : CallRecord} (hr : s.recordAt k = some r) :
    ∃ c : Call, c.Recorded ∧ c.record = r := by
  obtain ⟨c, hc, rfl⟩ := Option.map_eq_some_iff.mp hr
  exact ⟨c, h.calls c (List.mem_of_getElem? hc), rfl⟩

theorem Run.Recorded.hand (h : s.Recorded) {e : RelayEvent} (he : e.data.Proper) :
    (s.see (.handed e)).Recorded := by
  refine ⟨h.calls, fun d hd => ?_⟩
  rw [Run.see, HorizonRelay.told, handed_concat_handed, List.map_append, List.mem_append] at hd
  rcases hd with hd | hd
  · exact h.told d hd
  · obtain rfl : d = e.data := by simpa using hd
    exact he

theorem proper_of_ordinary {d : EventData} (h : d.Ordinary) : d.Proper := by
  cases d with
  | callFinished | callOutput => exact h.elim
  | escalated => exact h
  | _ => trivial

/-- **The details of events are durable.** -/
theorem durable_recorded : Durable Run.Recorded where
  congr hs h := by
    refine ⟨?_, ?_⟩
    · rw [hs.calls]
      exact h.calls
    · rw [hs.told]
      exact h.told
  addCall i tier p h := by
    refine ⟨fun c hc => ?_, fun d hd => h.told d (by rwa [told_addCall] at hd)⟩
    simp only [Run.addCall, List.mem_append, List.mem_singleton] at hc
    rcases hc with hc | rfl
    · exact h.calls c hc
    · exact ⟨rfl, rfl, rfl, rfl⟩
  setCall {s k f} hf h := by
    refine ⟨fun c hc => ?_, h.told⟩
    obtain ⟨m, hm, rfl⟩ := List.mem_iff_getElem.mp hc
    have hlt : m < s.calls.length := by simpa [Run.setCall] using hm
    have hold := h.calls _ (List.getElem_mem hlt)
    simp only [Run.setCall, List.getElem_modify]
    split
    · obtain ⟨hp, hop, hid, hn, ht⟩ := hf s.calls[m]
      refine ⟨?_, ?_, ?_, ?_⟩ <;> rw [hp]
      · exact hop.trans hold.operation
      · exact hid.trans hold.taskId
      · exact hn.trans hold.attempt
      · exact ht.trans hold.forTier
    · exact hold
  hand hd h := h.hand (proper_of_ordinary hd)
  report hs hr he h := by
    refine h.hand ?_
    rcases he with he | ⟨text, n, he⟩ <;> rw [he] <;> exact hs.at hr

theorem upholds_judgeLocally (tier : Tier) : (judgeLocally x tier).Upholds Run.Recorded :=
  have H := durable_recorded
  .bind (upholds_event H _ _ trivial) fun _ => .bind (upholds_samplesFrom H tier _ _) fun samples =>
    .bind (upholds_critiqueOf H tier samples) fun _ => .bind (.ofExcept _) fun _ =>
      .bind (upholds_tell H _ _ fun he h => h.hand (he ▸ trivial)) fun _ => .pure _

theorem upholds_cascade (tiers : List Tier) : (cascade x tiers).Upholds Run.Recorded := by
  have hupdate : ∀ {f : Run → Run}, (∀ s, (f s).calls = s.calls ∧ (f s).log = s.log) →
      (Coro.update f : Prog Unit).Upholds Run.Recorded := fun hf =>
    .update fun s h => ⟨(hf s).1 ▸ h.calls, (hf s).2 ▸ h.told⟩
  induction tiers with
  | nil => exact .pure _
  | cons tier tiers ih =>
      refine .ite ?_ ?_
      · exact .bind (hupdate fun _ => ⟨rfl, rfl⟩) fun _ =>
          .bind (upholds_event durable_recorded _ _ trivial) fun _ => ih
      · refine .bind (upholds_judgeLocally tier) fun v =>
          .bind (hupdate fun _ => ⟨rfl, rfl⟩) fun _ => .ite ih ?_
        exact .bind (hupdate fun _ => ⟨rfl, rfl⟩) fun _ =>
          .bind (upholds_event durable_recorded _ _ trivial) fun _ => .pure _

/-- **Everybody keeps the records.** -/
theorem upkeep_recorded (x : Setup) : x.system.Upkeep Run.Recorded where
  start i := by
    have H := durable_recorded
    cases i with
    | main => exact .bind (upholds_run H (upholds_cascade _)) fun _ => .pure _
    | job n => exact .bind (upholds_worker H n) fun _ => .pure _
    | follower k => exact .bind (upholds_follow H k) fun _ => .pure _
  answer i op s m r s' ha h := durable_recorded.congr (alike_answer ha) h
  finish i r s h := durable_recorded.congr (alike_finish i r s) h
  move v s s' hm h := durable_recorded.congr (alike_move hm) h

/-- **The events of a run are proper.** -/
theorem Setup.Reachable.recorded {c : State} (h : x.Reachable c) : c.shared.Recorded :=
  ((upkeep_recorded x).always recorded_empty h).1

end HorizonRelay
