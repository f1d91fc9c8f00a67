import HorizonRelay.Engine.Sound

/-!
# The places of calls

No two calls of a run have the same place, so the place of a call identifies it.

## Main results

* `Setup.schedule_nodup` — the main flow's order has each place once.
* `Ledger.Ok.slots_nodup` — each place is taken by one call at most.
-/

namespace HorizonRelay

open Py

variable {x : Setup} {permit : Permit} {l : Ledger}

theorem judgeSlots_nodup (t : Tier) : (x.judgeSlots t).Nodup :=
  (show (List.range' 1 _).Nodup from List.nodup_range').map fun _ _ h => (Slot.judge.inj h).2

theorem mem_localSlots {s : Slot} (h : s ∈ x.localSlots) :
    s = .extract ∨ ∃ t n, s = .judge t n := by
  rcases List.mem_append.mp h with h | h
  · split at h
    · exact .inl (List.mem_singleton.mp h)
    · cases h
  · obtain ⟨t, -, ht⟩ := List.mem_flatMap.mp h
    obtain ⟨n, -, rfl⟩ := List.mem_map.mp ht
    exact .inr ⟨t, n, rfl⟩

theorem localSlots_nodup : x.localSlots.Nodup := by
  refine List.nodup_append.mpr ⟨?_, ?_, ?_⟩
  · split <;> simp
  · refine List.nodup_flatMap.mpr ⟨fun t _ => judgeSlots_nodup t, ?_⟩
    refine (localTiers_nodup _ : x.locals.Nodup).imp fun {a b} hab => ?_
    intro s hs hs'
    obtain ⟨n, -, rfl⟩ := List.mem_map.mp hs
    obtain ⟨m, -, hm⟩ := List.mem_map.mp hs'
    exact hab (Slot.judge.inj hm).1.symm
  · rintro a ha b hb rfl
    split at ha
    · obtain rfl := List.mem_singleton.mp ha
      obtain ⟨t, -, ht⟩ := List.mem_flatMap.mp hb
      obtain ⟨n, -, hn⟩ := List.mem_map.mp ht
      cases hn
    · cases ha

theorem cloudSlots_nodup : x.cloudSlots.Nodup := by
  unfold Setup.cloudSlots
  refine List.nodup_append.mpr ⟨List.nodup_cons.mpr ⟨?_, ?_⟩, by simp, ?_⟩
  · simp
  · exact (show (List.range' 1 _).Nodup from List.nodup_range').map fun _ _ h => Slot.plan.inj h
  · rintro a ha b hb rfl
    obtain rfl := List.mem_singleton.mp hb
    simp at ha

/-- The main flow's order has each place once. -/
theorem Setup.schedule_nodup : x.schedule.Nodup := by
  refine List.nodup_append.mpr ⟨localSlots_nodup, cloudSlots_nodup, ?_⟩
  rintro a ha b hb rfl
  rcases mem_localSlots ha with rfl | ⟨t, n, rfl⟩ <;> simp [Setup.cloudSlots] at hb

/-- A place in the main flow's order is none of a worker's. -/
theorem work_not_mem_schedule (id : Str) (n : ℕ) : Slot.work id n ∉ x.schedule := by
  intro h
  rcases List.mem_append.mp h with h | h
  · rcases mem_localSlots h with h | ⟨t, n, h⟩ <;> cases h
  · simp [Setup.cloudSlots] at h

/-- The place of a worker's call names its task. -/
theorem JobOk.slot {n : ℕ} {job : Job} (h : JobOk x l n job) {i : ℕ} {c : Call}
    (hc : (l.mine (.job n))[i]? = some c) : c.slot = .work job.task.id (i + 1) := by
  rcases h.ladder with hnil | ⟨inputs, -, hladder⟩
  · rw [hnil] at hc
    cases hc
  · unfold Call.slot
    rw [hladder.payload i c hc]
    rfl

/-- Entries with one property each, told apart by a second one where they share the first. -/
theorem nodup_map_of_filter {α β γ : Type} [DecidableEq β] {f : α → β} {g : α → γ}
    {as : List α} (hfilter : ∀ b, ((as.filter fun a => f a = b).map g).Nodup)
    (hg : ∀ a ∈ as, ∀ a' ∈ as, g a = g a' → f a = f a') : (as.map g).Nodup := by
  induction as with
  | nil => exact List.nodup_nil
  | cons a as ih =>
      rw [List.map_cons, List.nodup_cons]
      refine ⟨fun hmem => ?_, ih (fun b => ?_) fun a' ha' a'' ha'' =>
        hg a' (List.mem_cons_of_mem _ ha') a'' (List.mem_cons_of_mem _ ha'')⟩
      · obtain ⟨a', ha', hga⟩ := List.mem_map.mp hmem
        have hf := hg a' (List.mem_cons_of_mem _ ha') a List.mem_cons_self hga
        have h := hfilter (f a)
        rw [List.filter_cons_of_pos (by simp), List.map_cons, List.nodup_cons] at h
        exact h.1 (List.mem_map.mpr ⟨a', List.mem_filter.mpr ⟨ha', by simpa using hf⟩, hga⟩)
      · refine (hfilter b).sublist (List.Sublist.map _ ?_)
        exact (List.sublist_cons_self a as).filter _

/-- **Each place is taken by one call at most.** -/
theorem Ledger.Ok.slots_nodup (h : l.Ok x permit) : (l.calls.map Call.slot).Nodup := by
  have hmain : ∀ c ∈ l.calls, c.thread = .main → c.slot ∈ x.schedule := fun c hc ht =>
    h.main.schedule.subset (List.mem_map_of_mem (List.mem_filter.mpr ⟨hc, by simpa using ht⟩))
  have hjob : ∀ c ∈ l.calls, ∀ n, c.thread = .job n → ∃ job i, l.jobs[n]? = some job ∧
      c.slot = .work job.task.id (i + 1) := by
    intro c hc n ht
    rcases h.calls.maker c hc with hm | ⟨m, hm, hm'⟩
    · rw [hm] at ht
      cases ht
    · obtain rfl : m = n := by
        rw [hm'] at ht
        exact Thread.job.inj ht
      obtain ⟨i, hi⟩ := List.mem_iff_getElem?.mp
        (show c ∈ l.mine (.job m) from List.mem_filter.mpr ⟨hc, by simpa using ht⟩)
      exact ⟨l.jobs[m], i, List.getElem?_eq_getElem hm,
        (h.jobs m _ (List.getElem?_eq_getElem hm)).slot hi⟩
  refine nodup_map_of_filter (f := Call.thread) (fun t => ?_) fun c hc c' hc' heq => ?_
  · cases t with
    | main => exact Setup.schedule_nodup.sublist h.main.schedule
    | job n =>
        cases hj : l.jobs[n]? with
        | none =>
            refine List.Nodup.of_map (f := id) ?_
            rw [List.filter_eq_nil_iff.mpr]
            · exact List.nodup_nil
            · intro c hc ht
              obtain ⟨job, -, hjob, -⟩ := hjob c hc n (by simpa using ht)
              rw [hj] at hjob
              cases hjob
        | some job =>
            refine List.nodup_iff_getElem?_ne_getElem?.mpr fun i j hij hlt heq => ?_
            have hslot := fun (k : ℕ) (c : Call) => (h.jobs n job hj).slot (i := k) (c := c)
            simp only [List.getElem?_map] at heq
            rw [List.length_map] at hlt
            change Option.map _ (l.mine (.job n))[i]? = Option.map _ (l.mine (.job n))[j]? at heq
            have hj' := List.getElem?_eq_getElem (l := l.mine (.job n)) hlt
            have hi' := List.getElem?_eq_getElem (l := l.mine (.job n)) (hij.trans hlt)
            rw [hi', hj', Option.map_some, Option.map_some, Option.some.injEq, hslot _ _ hi',
              hslot _ _ hj', Slot.work.injEq] at heq
            omega
    | follower k =>
        rw [List.filter_eq_nil_iff.mpr]
        · exact List.nodup_nil
        · intro c hc ht
          rcases h.calls.maker c hc with hm | ⟨n, -, hm⟩ <;> simp [hm] at ht
  · rcases h.calls.maker c hc with ht | ⟨n, -, ht⟩ <;>
      rcases h.calls.maker c' hc' with ht' | ⟨m, -, ht'⟩
    · rw [ht, ht']
    · obtain ⟨job, i, -, hs⟩ := hjob c' hc' m ht'
      have := hmain c hc ht
      rw [heq, hs] at this
      exact absurd this (work_not_mem_schedule _ _)
    · obtain ⟨job, i, -, hs⟩ := hjob c hc n ht
      have := hmain c' hc' ht'
      rw [← heq, hs] at this
      exact absurd this (work_not_mem_schedule _ _)
    · obtain ⟨job, i, hj, hs⟩ := hjob c hc n ht
      obtain ⟨job', i', hj', hs'⟩ := hjob c' hc' m ht'
      rw [hs, hs'] at heq
      rw [ht, ht', eq_of_task_id h.plan.ids hj hj' (Slot.work.inj heq).1]

/-- Calls at the same place are one call. -/
theorem Ledger.Ok.eq_of_slot (h : l.Ok x permit) {i j : ℕ} {c c' : Call}
    (hc : l.calls[i]? = some c) (hc' : l.calls[j]? = some c') (hs : c.slot = c'.slot) : i = j := by
  have hi := (List.getElem?_eq_some_iff.mp hc).1
  refine (List.getElem?_inj (by simpa using hi) h.slots_nodup).mp ?_
  simp [hc, hc', hs]

end HorizonRelay
