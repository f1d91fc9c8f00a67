import HorizonRelay.Observe.Resting

/-!
# What the writes of a task do to the scene

While the end of a run was not told, the tasks that act change the records in a few ways:
they make a call, note how a call goes on, start and stop its follower, and set results.
Each of these keeps the invariant and is something the task may do.

## Main definitions

* `Recording` — writes to the records that observers do not see.
* `Noted` — a call that goes on as the same call.

## Main results

* `Observed.record`, `Observed.addCall`, `Observed.setCall`, `Observed.watch`,
  `Observed.unwatch` — each write keeps the invariant.
-/

namespace HorizonRelay.Observed

open Py Coop

variable {x : Setup} {a : Premises} {i : Thread} {s s' : Run}

/-! ## An open run -/

theorem events_of_open (h : Story x a s) (hopen : ¬ s.progress.Ended) :
    ∀ e ∈ handed s.log, e.data.metrics? = none := by
  intro e he
  by_contra hm
  exact hopen (h.accepts.ended (List.mem_map_of_mem he) (Option.isSome_iff_ne_none.mpr hm))

/-- Nothing is said about the end of a run before it is told. -/
theorem closes_of_open (h : Story x a s) (hopen : ¬ s.progress.Ended) : Closes x a s where
  atEnd hend := absurd hend hopen
  last := .of_open (events_of_open h hopen)
  metrics e he m hm := by
    rw [events_of_open h hopen e he] at hm
    cases hm
  completes _ hstop := absurd (.inr hstop) hopen
  returns _ hcomp := absurd (.inl hcomp) hopen

/-- While a task acts, and its run was told to be under way, the end was not told. -/
theorem open_of_acts {n : ℕ} (h : Observed x a (some i) s) (hn : s.running n = true) :
    ¬ s.progress.Ended := by
  intro hend
  rw [(h.closes.atEnd hend).idle n] at hn
  cases hn

/-! ## Records -/

/-- What observers do not see of the records may change, and results may be set. -/
structure Recording (i : Thread) (s s' : Run) : Prop where
  log : s'.log = s.log := by rfl
  calls : s'.calls = s.calls := by rfl
  lives : s'.lives = s.lives := by rfl
  jobs : s'.jobs = s.jobs := by rfl
  lock : s'.eventLock = s.eventLock := by rfl
  seq : s'.seq = s.seq := by rfl
  number : s'.number = s.number := by rfl
  cancels : s'.cancels = s.cancels := by rfl
  gathering : i ≠ .main → s'.gathering = s.gathering
  results : s.results.keys ⊆ s'.results.keys
  others : ∀ (n : ℕ) (job : Job), s.jobs[n]? = some job → job.outcome.isSome →
    job.task.id ∈ s'.results.keys → job.task.id ∈ s.results.keys

/-- A write to what observers never see of the records. -/
theorem Recording.unseen (results : s'.results = s.results := by rfl)
    (log : s'.log = s.log := by rfl) (calls : s'.calls = s.calls := by rfl)
    (lives : s'.lives = s.lives := by rfl) (jobs : s'.jobs = s.jobs := by rfl)
    (lock : s'.eventLock = s.eventLock := by rfl) (seq : s'.seq = s.seq := by rfl)
    (number : s'.number = s.number := by rfl) (cancels : s'.cancels = s.cancels := by rfl)
    (gathering : s'.gathering = s.gathering := by rfl) : Recording i s s' where
  log := log
  calls := calls
  lives := lives
  jobs := jobs
  lock := lock
  seq := seq
  number := number
  cancels := cancels
  gathering _ := gathering
  results := results ▸ List.Subset.refl _
  others _ _ _ _ h := results ▸ h

theorem Recording.scene (h : Recording i s s') : SameScene s s' :=
  ⟨h.log ▸ .refl _, h.calls, sameLives_of_eq h.lives, h.jobs⟩

theorem Recording.does (h : Recording i s s') : Does a i s s' where
  told := ⟨[], by rw [h.log, List.append_nil], by simp⟩
  accepts ha := h.log ▸ ha
  held j _ hj := ⟨h.lock ▸ hj, by rw [h.log], by rw [h.log]⟩
  free j _ hj := h.lock ▸ hj
  waiting j _ := by rw [h.lock]
  number j _ := by rw [h.number]
  cancels j _ hj := h.cancels ▸ hj
  spares _ hj := h.cancels ▸ hj
  keys k c hc := ⟨c, by rw [h.calls, hc], rfl, rfl⟩
  lives k c _ _ := by
    unfold Run.live
    rw [h.lives]
    exact ⟨rfl, rfl⟩
  stops k _ := by
    unfold Run.live
    rw [h.lives]
    exact ⟨id, .inl⟩
  calls _ _ := h.calls
  tasks _ := by rw [h.jobs]
  gathering := h.gathering

/-- **The records may change.** -/
theorem record (h : Observed x a (some i) s) (hopen : ¬ s.progress.Ended)
    (hr : Recording i s s') : Observed x a (some i) s' := by
  have hstory := h.story.congr hr.scene hr.results
  refine ⟨?_, hstory, ?_, ?_, closes_of_open hstory (hr.scene.progress ▸ hopen)⟩
  · exact h.queue.congr hr.lock hr.log hr.seq hr.number fun j _ hj => hr.cancels ▸ hj
  · exact h.follows.congr hr.scene fun _ _ hj => hr.lock ▸ hj
  · exact
      { ids := by rw [hr.jobs]; exact h.works.ids
        planned := by rw [hr.jobs, hr.scene.progress]; exact h.works.planned
        fresh := by rw [hr.jobs, hr.scene.progress, hr.number]; exact h.works.fresh
        assembled := by rw [hr.calls, hr.jobs]; exact h.works.assembled
        jobs := fun n job hj hout => by
          rw [hr.jobs] at hj
          exact (h.works.jobs n job hj hout).congr hr.scene fun _ _ hk =>
            .inl (hr.others n job hj hout hk)
        gathered := fun hwho n hn => by
          rw [hr.scene.running] at hn
          rw [hr.gathering fun hi => hwho (congrArg some hi)]
          exact h.works.gathered hwho n hn
        cancels := hr.cancels ▸ h.works.cancels }

/-! ## A new call -/

section Add
variable {tier : Tier} {p : Payload}

theorem live_addCall {k : ℕ} (h : s.lives.length = s.calls.length) :
    (s.addCall i tier p).live k = s.live k := by
  unfold Run.live Run.addCall
  simp only
  rcases Nat.lt_trichotomy k s.lives.length with hk | rfl | hk
  · rw [List.getElem?_append_left hk]
  · simp
  · have hold : s.lives[k]? = none := List.getElem?_eq_none (by omega)
    have hnew : (s.lives ++ [({} : Live)])[k]? = none :=
      List.getElem?_eq_none (by rw [List.length_append, List.length_singleton]; omega)
    rw [hold, hnew]

theorem quiet_addCall {k : ℕ} (h : s.lives.length = s.calls.length) :
    (s.addCall i tier p).Quiet k ↔ s.Quiet k := by
  unfold Run.Quiet
  rw [live_addCall h]

/-- A call after a new one was made: an old call, or the new one. -/
theorem getElem?_addCall {k : ℕ} {c : Call} (hc : (s.addCall i tier p).calls[k]? = some c) :
    s.calls[k]? = some c ∨ k = s.calls.length ∧ c = s.newCall i tier p :=
  getElem?_concat_cases hc

theorem progress_addCall : (s.addCall i tier p).progress = s.progress :=
  progress_congr (handed_concat_requested _ _)

theorem does_addCall (h : s.lives.length = s.calls.length) (hi : ∀ k, i ≠ .follower k) :
    Does a i s (s.addCall i tier p) :=
  { Does.refl a i s with
    told := ⟨[], by simp [Run.addCall], by simp⟩
    accepts := fun ha => by
      unfold HorizonRelay.told at ha ⊢
      rwa [show handed (s.addCall i tier p).log = handed s.log from handed_concat_requested _ _]
    held := fun j _ hj => ⟨hj, handed_concat_requested _ _, by simp [Run.addCall, Entry.turn]⟩
    keys := fun k c hc => ⟨c, by
      simp only [Run.addCall]
      rw [List.getElem?_append_left (List.getElem?_eq_some_iff.mp hc).1, hc], rfl, rfl⟩
    lives := fun k _ _ _ => by
      rw [live_addCall h]
      exact ⟨rfl, rfl⟩
    stops := fun k _ => by
      rw [live_addCall h]
      exact ⟨id, .inl⟩
    calls := fun k hk => absurd hk (hi k) }

/-- Where a task's calls have their place. -/
def Places (i : Thread) (p : Payload) (s : Run) : Prop :=
  (i = .main ∧ p.slot.isMain = true) ∨
    ∃ n job m, i = .job n ∧ s.jobs[n]? = some job ∧ p.slot = .work job.task.id m

/-- The jobs of a running task are not over. -/
theorem ne_of_acts (hi : Acts x i s) {n : ℕ} {job : Job} (hj : s.jobs[n]? = some job)
    (hout : job.outcome.isSome) : i ≠ .job n := by
  rintro rfl
  have hn := hi.1
  simp [Ledger.running, hj, Option.isSome_iff_ne_none.mp hout] at hn

/-- **A call is made.** -/
theorem addCall (h : Observed x a (some i) s) (hi : Acts x i s) (hopen : ¬ s.progress.Ended)
    (hplace : Places i p s)
    (hall : p.slot = .synthesize → ∀ job ∈ s.jobs, ∃ v, job.outcome = some (.ok v)) :
    Observed x a (some i) (s.addCall i tier p) := by
  have hlen := h.follows.lives
  have hmem : ∀ c ∈ (s.addCall i tier p).calls, c ∈ s.calls ∨
      c = s.newCall i tier p := by
    intro c hc
    simpa [Run.addCall] using hc
  have hold : ∀ c ∈ s.calls, c ∈ (s.addCall i tier p).calls := fun c hc =>
    List.mem_append_left _ hc
  have hstory : Story x a (s.addCall i tier p) :=
    { silent := fun he => by
        rw [show handed (s.addCall i tier p).log = handed s.log from handed_concat_requested _ _]
        exact h.story.silent he
      accepts := (does_addCall (a := a) hlen fun k hk => by rw [hk] at hi; cases hi).accepts
        h.story.accepts
      finished := fun key hk => by
        rw [progress_addCall] at hk
        obtain ⟨c, hc, hkey⟩ := h.story.finished key hk
        exact ⟨c, hold c hc, hkey⟩
      outputs := fun key hk => by
        rw [progress_addCall] at hk
        obtain ⟨c, hc, hkey⟩ := h.story.outputs key hk
        exact ⟨c, hold c hc, hkey⟩
      done := by
        rw [progress_addCall]
        exact h.story.done
      requests := by
        have hreq := h.story.requests
        simp only [requested] at hreq
        simp [Run.addCall, requested, List.filterMap_append, Entry.call?, hreq, List.range_succ]
      recorded := fun c hc hend => by
        rcases hmem c hc with hc | rfl
        · exact h.story.recorded c hc hend
        · cases hend
      flags := by
        rw [show handed (s.addCall i tier p).log = handed s.log from handed_concat_requested _ _]
        exact h.story.flags }
  refine ⟨?_, hstory, ?_, ?_, closes_of_open hstory (by rw [progress_addCall]; exact hopen)⟩
  · exact { h.queue.see (e := .requested s.calls.length) (fun _ => rfl) rfl with }
  · refine
      { lives := by simp [Run.addCall, hlen], owned := fun c hc => ?_
        watched := fun k => by rw [live_addCall hlen]; exact h.follows.watched k
        busy := fun k c hc hq => ?_, link := fun k c hc hq hf => ?_
        still := fun k c hc hwho hf hend => ?_ }
    · rcases hmem c hc with hc | rfl
      · exact h.follows.owned c hc
      · exact hplace
    · rw [quiet_addCall hlen] at hq
      rcases getElem?_addCall hc with hc | ⟨rfl, rfl⟩
      · exact h.follows.busy k c hc hq
      · refine absurd (fun hw => ?_) hq
        simp [Run.live, ← hlen] at hw
    · rw [quiet_addCall hlen] at hq
      rw [progress_addCall] at hf ⊢
      rcases getElem?_addCall hc with hc | ⟨rfl, rfl⟩
      · exact h.follows.link k c hc hq hf
      · refine absurd (fun hw => ?_) hq
        simp [Run.live, ← hlen] at hw
    · rw [progress_addCall] at hf
      rw [quiet_addCall hlen]
      rcases getElem?_addCall hc with hc | ⟨rfl, rfl⟩
      · exact h.follows.still k c hc hwho hf hend
      · cases hend
  · refine
      { ids := h.works.ids
        planned := by rw [progress_addCall]; exact h.works.planned
        fresh := by rw [progress_addCall]; exact h.works.fresh
        assembled := fun c hc hs => ?_
        jobs := fun n job hj hout => ?_
        gathered := h.works.gathered, cancels := h.works.cancels }
    · rcases hmem c hc with hc | rfl
      · exact h.works.assembled c hc hs
      · exact hall hs
    · have hne := ne_of_acts hi hj hout
      have hback : ∀ c ∈ (s.addCall i tier p).calls, c.thread = .job n → c ∈ s.calls := by
        intro c hc hthread
        rcases hmem c hc with hc | rfl
        · exact hc
        · exact absurd hthread hne
      have hjob := h.works.jobs n job hj hout
      refine ⟨fun c hc ht => hjob.ended c (hback c hc ht) ht, fun v hv he => ?_, ?_,
        fun ha c hc ht => ?_⟩
      · rw [progress_addCall]
        obtain ⟨hdone, htold⟩ := hjob.told v hv he
        exact ⟨hdone, fun c hc ht => htold c (hback c hc ht) ht⟩
      · rw [progress_addCall]
        exact hjob.unhurt
      · rw [progress_addCall]
        exact hjob.calm ha c (hback c hc ht) ht

end Add

/-! ## A call under way -/

/-- A call that goes on as the same call. -/
structure Noted (c c' : Call) : Prop where
  thread : c'.thread = c.thread
  key : c'.key = c.key
  ended : c.ended.isSome → c'.ended.isSome
  outcome : c'.ended.isSome → c'.record.outcome ≠ .started

section Set
variable {k : ℕ} {f : Call → Call} {c : Call}

theorem getElem?_setCall {j : ℕ} {c' : Call} (hc : (s.setCall k f).calls[j]? = some c') :
    ∃ c, s.calls[j]? = some c ∧ (c' = c ∨ j = k ∧ c' = f c) := by
  simp only [Run.setCall, List.getElem?_modify, Option.map_eq_map, Option.map_eq_some_iff] at hc
  obtain ⟨c, hc, rfl⟩ := hc
  refine ⟨c, hc, ?_⟩
  split
  · rename_i hk
    exact .inr ⟨hk.symm, rfl⟩
  · exact .inl rfl

theorem getElem?_setCall_of {j : ℕ} (hc : s.calls[j]? = some c) :
    (s.setCall k f).calls[j]? = some (if k = j then f c else c) := by
  simp only [Run.setCall, List.getElem?_modify, hc]
  split <;> rfl

/-- A change to one call that goes on leaves all calls what they are. -/
theorem noted_setCall (hc : s.calls[k]? = some c) (hf : Noted c (f c)) {j : ℕ} {c' : Call}
    (hc' : (s.setCall k f).calls[j]? = some c') :
    ∃ c₀, s.calls[j]? = some c₀ ∧ c'.thread = c₀.thread ∧ c'.key = c₀.key ∧
      (c' = c₀ ∨ j = k ∧ c' = f c) := by
  obtain ⟨c₀, hc₀, rfl | ⟨rfl, rfl⟩⟩ := getElem?_setCall hc'
  · exact ⟨c', hc₀, rfl, rfl, .inl rfl⟩
  · obtain rfl := Option.some.inj (hc.symm.trans hc₀)
    exact ⟨c, hc₀, hf.thread, hf.key, .inr ⟨rfl, rfl⟩⟩

theorem does_setCall (hi : ∀ k, i ≠ .follower k) (hc : s.calls[k]? = some c)
    (hf : Noted c (f c)) : Does a i s (s.setCall k f) :=
  { Does.refl a i s with
    keys := fun j d hd => by
      refine ⟨_, getElem?_setCall_of hd, ?_⟩
      split
      · rename_i hk
        subst hk
        obtain rfl := Option.some.inj (hc.symm.trans hd)
        exact ⟨hf.thread, hf.key⟩
      · exact ⟨rfl, rfl⟩
    calls := fun j hj => absurd hj (hi j) }

/-- **A call goes on, or ends.** -/
theorem setCall (h : Observed x a (some i) s) (hi : Acts x i s) (hopen : ¬ s.progress.Ended)
    (hc : s.calls[k]? = some c) (ht : c.thread = i) (hf : Noted c (f c)) :
    Observed x a (some i) (s.setCall k f) := by
  have hback : ∀ c' ∈ (s.setCall k f).calls, ∃ c₀ ∈ s.calls, c'.thread = c₀.thread ∧
      c'.key = c₀.key ∧ (c' = c₀ ∨ c' = f c) := by
    intro c' hc'
    obtain ⟨j, hj⟩ := List.mem_iff_getElem?.mp hc'
    obtain ⟨c₀, hc₀, hthread, hkey, heq⟩ := noted_setCall hc hf hj
    exact ⟨c₀, List.mem_of_getElem? hc₀, hthread, hkey, heq.imp_right And.right⟩
  have hforth : ∀ c₀ ∈ s.calls, ∃ c' ∈ (s.setCall k f).calls, c'.key = c₀.key ∧
      (c₀.ended.isSome → c'.ended.isSome) := by
    intro c₀ hc₀
    obtain ⟨j, hj⟩ := List.mem_iff_getElem?.mp hc₀
    refine ⟨_, List.mem_of_getElem? (getElem?_setCall_of hj), ?_⟩
    split
    · rename_i hk
      subst hk
      obtain rfl := Option.some.inj (hc.symm.trans hj)
      exact ⟨hf.key, hf.ended⟩
    · exact ⟨rfl, id⟩
  have hstory : Story x a (s.setCall k f) :=
    { h.story with
      finished := fun key hk => by
        obtain ⟨c₀, hc₀, rfl, hend⟩ := h.story.finished key hk
        obtain ⟨c', hc', hkey, hend'⟩ := hforth c₀ hc₀
        exact ⟨c', hc', hkey, hend' hend⟩
      outputs := fun key hk => by
        obtain ⟨c₀, hc₀, rfl⟩ := h.story.outputs key hk
        obtain ⟨c', hc', hkey, -⟩ := hforth c₀ hc₀
        exact ⟨c', hc', hkey⟩
      requests := by
        rw [show (s.setCall k f).calls.length = s.calls.length from by simp [Run.setCall]]
        exact h.story.requests
      recorded := fun c' hc' hend => by
        obtain ⟨c₀, hc₀, -, -, rfl | rfl⟩ := hback c' hc'
        · exact h.story.recorded c' hc₀ hend
        · exact hf.outcome hend }
  refine ⟨{ h.queue with }, hstory, ?_, ?_, closes_of_open hstory hopen⟩
  · refine
      { lives := by rw [show (s.setCall k f).calls.length = s.calls.length from by
                      simp [Run.setCall]]; exact h.follows.lives
        owned := fun c' hc' => ?_, watched := h.follows.watched
        busy := fun j c' hc' hq => ?_, link := fun j c' hc' hq hfin => ?_
        still := fun j c' hc' hwho hfin hend => ?_ }
    · obtain ⟨c₀, hc₀, hthread, hkey, -⟩ := hback c' hc'
      have hslot : c'.slot = c₀.slot := congrArg Key.slot hkey
      have := h.follows.owned c₀ hc₀
      unfold Run.Owns at this ⊢
      rw [hthread, hslot]
      exact this
    · obtain ⟨c₀, hc₀, hthread, -, -⟩ := noted_setCall hc hf hc'
      rw [hthread]
      exact h.follows.busy j c₀ hc₀ hq
    · obtain ⟨c₀, hc₀, -, hkey, -⟩ := noted_setCall hc hf hc'
      rw [hkey] at hfin ⊢
      exact h.follows.link j c₀ hc₀ hq hfin
    · obtain ⟨c₀, hc₀, hthread, hkey, rfl | ⟨rfl, rfl⟩⟩ := noted_setCall hc hf hc'
      · exact h.follows.still j c' hc₀ hwho hfin hend
      · exact absurd (by rw [hf.thread, ht]) hwho
  · refine
      { h.works with
        assembled := fun c' hc' hs => ?_, jobs := fun n job hj hout => ?_ }
    · obtain ⟨c₀, hc₀, -, hkey, -⟩ := hback c' hc'
      exact h.works.assembled c₀ hc₀ ((congrArg Key.slot hkey).symm.trans hs)
    · have hne := ne_of_acts hi hj hout
      have hold : ∀ c' ∈ (s.setCall k f).calls, c'.thread = .job n → c' ∈ s.calls := by
        intro c' hc' hthread
        obtain ⟨c₀, hc₀, -, -, rfl | rfl⟩ := hback c' hc'
        · exact hc₀
        · exact absurd (ht.symm.trans (hf.thread.symm.trans hthread)) hne
      have hjob := h.works.jobs n job hj hout
      exact
        { ended := fun c' hc' ht' => hjob.ended c' (hold c' hc' ht') ht'
          told := fun v hv he => ⟨(hjob.told v hv he).1, fun c' hc' ht' =>
            (hjob.told v hv he).2 c' (hold c' hc' ht') ht'⟩
          unhurt := hjob.unhurt
          calm := fun ha c' hc' ht' => hjob.calm ha c' (hold c' hc' ht') ht' }

end Set

/-! ## Cancellations -/

theorem mem_cancel {j : Thread} : j ∈ (s.cancel i).cancels ↔ j ∈ s.cancels ∨ j = i := by
  unfold Run.cancel
  by_cases hi : i ∈ s.cancels
  · simp only [if_pos hi]
    exact ⟨.inl, fun hj => hj.elim id fun hj => hj ▸ hi⟩
  · simp only [if_neg hi, List.mem_append, List.mem_singleton]

theorem nodup_cancel (h : s.cancels.Nodup) : (s.cancel i).cancels.Nodup := by
  unfold Run.cancel
  by_cases hi : i ∈ s.cancels
  · simp only [if_pos hi]
    exact h
  · simp only [if_neg hi]
    refine List.nodup_append.mpr ⟨h, List.nodup_singleton _, ?_⟩
    rintro b hb b' hb' rfl
    exact hi (List.mem_singleton.mp hb' ▸ hb)

/-! ## Followers -/

/-- Only live output changed, and more tasks were asked to stop. -/
structure Reliving (s s' : Run) : Prop where
  ledger : s'.toLedger = s.toLedger := by rfl
  log : s'.log = s.log := by rfl
  lives : s'.lives.length = s.lives.length
  lock : s'.eventLock = s.eventLock := by rfl
  seq : s'.seq = s.seq := by rfl
  number : s'.number = s.number := by rfl
  gathering : s'.gathering = s.gathering := by rfl
  cancels : s'.cancels.Nodup
  spread : s.cancels ⊆ s'.cancels

/-- **The followers of a task's calls start and stop.** -/
theorem relive (h : Observed x a (some i) s) (hopen : ¬ s.progress.Ended) (hr : Reliving s s')
    (hwatched : ∀ k, (s'.live k).watched = true → x.emit = true)
    (hbusy : ∀ (k : ℕ) (c : Call), s.calls[k]? = some c → ¬ s'.Quiet k → ¬ s.Quiet k ∨
      Acts x i s ∧ c.thread = i ∧ s.progress.Calling c.key)
    (hothers : ∀ (k : ℕ) (c : Call), s.calls[k]? = some c → c.thread ≠ i → s.Quiet k →
      s'.Quiet k) : Observed x a (some i) s' := by
  have hprog : s'.progress = s.progress := progress_congr (by rw [hr.log])
  have hcalls : s'.calls = s.calls := congrArg Ledger.calls hr.ledger
  have hjobs : s'.jobs = s.jobs := congrArg Ledger.jobs hr.ledger
  have hresults : s'.results = s.results := congrArg Ledger.results hr.ledger
  have hrun : ∀ n, s'.running n = s.running n := fun n =>
    running_of_jobs (by rw [hjobs])
  have hstory : Story x a s' :=
    { silent := by rw [hr.log]; exact h.story.silent
      accepts := by rw [hr.log]; exact h.story.accepts
      finished := by rw [hprog, hcalls]; exact h.story.finished
      outputs := by rw [hprog, hcalls]; exact h.story.outputs
      done := by rw [hprog, hresults]; exact h.story.done
      requests := by rw [hr.log, hcalls]; exact h.story.requests
      recorded := by rw [hcalls]; exact h.story.recorded
      flags := by rw [hr.log]; exact h.story.flags }
  refine ⟨?_, hstory, ?_, ?_, closes_of_open hstory (hprog ▸ hopen)⟩
  · exact h.queue.congr hr.lock hr.log hr.seq hr.number fun j _ hj => hr.spread hj
  · refine
      { lives := by rw [hr.lives, hcalls]; exact h.follows.lives
        owned := by
          unfold Run.Owns
          rw [hcalls, hjobs]
          exact h.follows.owned
        watched := hwatched, busy := fun k c hc hq => ?_, link := fun k c hc hq hf => ?_
        still := fun k c hc hwho hf hend => ?_ }
    · rw [hcalls] at hc
      simp only [hrun]
      rcases hbusy k c hc hq with hq | ⟨hi, ht, -⟩
      · exact h.follows.busy k c hc hq
      · cases i with
        | main => exact .inl ht
        | job n => exact .inr ⟨n, ht, hi.1⟩
        | follower k => cases hi
    · rw [hcalls] at hc
      rw [hprog] at hf ⊢
      rcases hbusy k c hc hq with hq | ⟨-, -, hcall⟩
      · exact h.follows.link k c hc hq hf
      · exact hcall
    · rw [hcalls] at hc
      rw [hprog] at hf
      rw [hr.lock]
      exact (h.follows.still k c hc hwho hf hend).imp_left
        (hothers k c hc fun ht => hwho (congrArg some ht.symm))
  · exact
      { ids := by rw [hjobs]; exact h.works.ids
        planned := by rw [hjobs, hprog]; exact h.works.planned
        fresh := by rw [hjobs, hprog, hr.number]; exact h.works.fresh
        assembled := by rw [hcalls, hjobs]; exact h.works.assembled
        jobs := fun n job hj hout => by
          rw [hjobs] at hj
          have hjob := h.works.jobs n job hj hout
          exact
            { ended := by rw [hcalls]; exact hjob.ended
              told := by rw [hprog, hcalls]; exact hjob.told
              unhurt := by rw [hprog, hresults]; exact hjob.unhurt
              calm := by rw [hprog, hcalls]; exact hjob.calm }
        gathered := fun hwho n hn => by
          rw [hrun] at hn
          rw [hr.gathering]
          exact h.works.gathered hwho n hn
        cancels := hr.cancels }

theorem live_setLive {k j : ℕ} {f : Live → Live} (hk : k < s.lives.length) :
    (s.setLive k f).live j = if k = j then f (s.live j) else s.live j := by
  unfold Run.live Run.setLive
  simp only [List.getElem?_modify]
  split
  · rename_i heq
    subst heq
    rw [List.getElem?_eq_getElem hk]
    rfl
  · cases s.lives[j]? <;> rfl

end HorizonRelay.Observed
