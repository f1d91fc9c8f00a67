import HorizonRelay.Observe.Updates

/-!
# Model calls, as observers see them

A task that makes a call is followed while the provider works, reports how the call ended
unless it is cancelled, and stops its follower.  Afterwards it is between its calls again.

## Main definitions

* `Since` — what a task's steps leave as it was, and what was told meanwhile.
* `Inside` — a task inside a call.
* `Called`, `Cut` — what a call leaves, reported or cut off.

## Main results

* `Resting.wp_callWithRecord` — the rule of model calls.
-/

namespace HorizonRelay.Observed

open Py Coop

variable {x : Setup} {a : Premises} {i : Thread} {s s' s'' : Run} {p q : Progress}

/-! ## Steps of a task -/

/-- What the steps of a task leave as it was, and where it is told to be. -/
structure Since (x : Setup) (i : Thread) (p : Progress) (s s' : Run) : Prop where
  went : Went i s s'
  story : x.emit = true → SameFor i s p s'.progress

/-- The task of a job, if the task is one, is known. -/
def Known (i : Thread) (s : Run) (p : Progress) : Prop :=
  ∀ n job, i = .job n → s.jobs[n]? = some job → (p.tasks job.task.id).isSome

theorem known_of_acts (hi : Acts x i s) (he : x.emit = true) : Known i s s.progress :=
  some_of_acts hi he

theorem Known.after (h : Known i s p) {d : EventData}
    (hplan : ∀ n, i = .job n → ∀ tasks t, d ≠ .planCreated tasks t) : Known i s (p.after d) :=
  fun n job hn hj => Progress.isSome_after (h n job hn hj) (hplan n hn)

theorem sameFor_of_went (hw : Went i s s') (h : SameFor i s' p q) : SameFor i s p q := by
  cases i with
  | main => exact h
  | job n =>
      intro hn job hj hid
      have hjob := (hw.job n rfl hn).1
      exact h (by
        rw [running_of_jobs hjob]
        exact hn) job (hjob.trans hj) hid
  | follower k => trivial

theorem Since.refl (x : Setup) (i : Thread) (s : Run) : Since x i s.progress s s :=
  ⟨.refl i s, fun _ => .refl i s _⟩

theorem Since.trans (h : Since x i p s s') (h' : Since x i s'.progress s' s'') :
    Since x i p s s'' :=
  ⟨h.went.trans h'.went, fun he => (h.story he).trans (sameFor_of_went h.went (h'.story he))⟩

/-- The task told something itself. -/
theorem Since.tell (h : Since x i p s s') {d : EventData} (hk : x.emit = true → Known i s p)
    (h' : Since x i (s'.progress.after d) s' s'') : Since x i (p.after d) s s'' :=
  ⟨h.went.trans h'.went, fun he =>
    (sameFor_congr (h.story he) (hk he) d).trans (sameFor_of_went h.went (h'.story he))⟩

theorem since_of_steady (h : Steady i s s') (hs : x.emit = true → SameFor i s p s'.progress) :
    Since x i p s s' := ⟨went_of_steady h, hs⟩

/-- A write that nobody is told about. -/
theorem since_of_eq (hj : s'.jobs = s.jobs) (hr : s'.results = s.results)
    (ho : s'.outcome = s.outcome) (hg : s'.gathering = s.gathering)
    (hp : s'.progress = s.progress) : Since x i s.progress s s' :=
  ⟨went_of_eq hj hr ho hg, fun _ => hp ▸ .refl i s _⟩

theorem Said.since {p : Progress} (h : Said x a i p s s') : Since x i p s s' :=
  since_of_steady h.steady h.story

theorem acts_of_recording (h : Acts x i s) (hr : Recording i s s') : Acts x i s' := by
  have hprog : s'.progress = s.progress := hr.scene.progress
  have hrun : ∀ n, s'.running n = s.running n := hr.scene.running
  cases i with
  | main =>
      intro n
      rw [hrun]
      exact h n
  | job n =>
      obtain ⟨hn, job, hj, hid⟩ := h
      refine ⟨by rw [hrun]; exact hn, job, by rw [hr.jobs]; exact hj, ?_⟩
      rw [hprog]
      exact hid
  | follower k => cases h

/-- A task between its calls writes to the records. -/
theorem Resting.record (h : Resting x a i s) (hopen : ¬ s.progress.Ended)
    (hr : Recording i s s') : Resting x a i s' ∧ (Complete x i s → Complete x i s') := by
  have hprog : s'.progress = s.progress := hr.scene.progress
  refine ⟨⟨⟨h.observed.record hopen hr, acts_of_recording h.acts hr, ?_, ?_⟩, ?_⟩, ?_⟩
  · intro k c hc hi
    rw [hr.calls] at hc
    rw [hr.scene.quiet]
    exact h.settled k c hc hi
  · rw [hr.calls, hprog]
    exact h.calm
  · have hfree := h.free
    unfold Free at hfree ⊢
    rw [hr.lock]
    exact hfree
  · unfold Complete
    rw [hr.calls, hprog]
    exact id

/-- A cancellation that reached a task between its calls. -/
theorem Resting.uncancel (h : Resting x a i s) : Resting x a i (s.uncancel i) where
  observed := observed_uncancel h.observed h.free.2
  acts := by
    have := h.acts
    cases i <;> exact this
  settled := h.settled
  calm := h.calm
  free := h.free

/-- A task between its calls may suspend. -/
theorem Resting.park (h : Resting x a i s) (hpark : Parks i s) : Observed x a none s :=
  h.observed.park hpark fun k c hc hi _ _ => .inl (h.settled k c hc hi).2

/-- A task between its calls comes back from a suspension. -/
theorem Resting.resume (h : Resting x a i s) (hr : Relies a i s s') (hobs : Observed x a none s') :
    Resting x a i s' ∧ (Complete x i s → Complete x i s') := by
  obtain ⟨hset, hcomp⟩ := h.toSettled.of_steady (hobs.wake i) hr.toSteady (fun _ => hr.story)
    (fun _ hk => hk) (some_of_acts h.acts)
  exact ⟨⟨hset, free_of_relies hr h.free⟩, hcomp⟩

/-- The end stays untold while others tell something. -/
theorem open_of_sameFor (hobs : Observed x a (some i) s') (hi : Acts x i s')
    (hs : x.emit = true → SameFor i s p s'.progress) (hp : ¬ p.Ended) : ¬ s'.progress.Ended := by
  by_cases he : x.emit = true
  · cases i with
    | main =>
        have hmain := (hs he).main
        unfold Progress.Ended at hp ⊢
        rwa [hmain]
    | job n => exact open_of_acts hobs hi.1
    | follower k => cases hi
  · rw [progress_silent hobs he]
    simp [Progress.Ended]

/-! ## Inside a call -/

/-- A task inside call `k`, with its other calls behind it. -/
structure Inside (x : Setup) (a : Premises) (i : Thread) (k : ℕ) (c : Call) (s : Run) : Prop where
  observed : Observed x a (some i) s
  acts : Acts x i s
  free : Free i s
  opened : ¬ s.progress.Ended
  call : s.calls[k]? = some c
  thread : c.thread = i
  recorded : c.Recorded
  behind : ∀ (j : ℕ) (d : Call), s.calls[j]? = some d → d.thread = i → j ≠ k →
    d.ended.isSome ∧ s.Quiet j ∧ (x.emit = true → d.key ∈ s.progress.finished)

theorem Inside.stills {k : ℕ} {c : Call} (h : Inside x a i k c s)
    (hc : c.ended.isSome → c.key ∉ s.progress.finished) : Stills i s := by
  intro j d hd ht hf hend
  by_cases hj : j = k
  · subst hj
    obtain rfl := Option.some.inj (h.call.symm.trans hd)
    exact absurd hf (hc hend)
  · exact .inl (h.behind j d hd ht hj).2.1

theorem Inside.of_steady {k : ℕ} {c : Call} (h : Inside x a i k c s)
    (hobs : Observed x a (some i) s') (hs : Steady i s s') (hfree : Free i s')
    (hp : x.emit = true → SameFor i s p s'.progress)
    (hfin : ∀ key ∈ s.progress.finished, key ∈ p.finished)
    (hsome : x.emit = true → Known i s p) (hopen : ¬ p.Ended) : Inside x a i k c s' := by
  have hcalls := sameCalls_of_steady hs h.acts
  have hacts : Acts x i s' := acts_of_went h.acts (went_of_steady hs) fun he n job hn hj _ =>
    isSome_of_sameFor (hp he) h.acts hn hj (hsome he n job hn hj)
  refine
    { observed := hobs, acts := hacts, free := hfree
      opened := open_of_sameFor hobs hacts hp hopen
      call := (hcalls k c h.thread).mp h.call, thread := h.thread, recorded := h.recorded
      behind := fun j d hd ht hj => ?_ }
  have hd' := (hcalls j d ht).mpr hd
  obtain ⟨hend, hq, hf⟩ := h.behind j d hd' ht hj
  refine ⟨hend, (hs.quiet hd' ht).mpr hq, fun he => ?_⟩
  exact (finished_of_sameFor (hp he) h.acts (hsome he)
    (h.observed.follows.owned d (List.mem_of_getElem? hd')) ht).mpr (hfin _ (hf he))

/-- The call goes on, or ends. -/
theorem Inside.setCall {k : ℕ} {c : Call} (h : Inside x a i k c s) {f : Call → Call}
    (hf : Noted c (f c)) (hr : (f c).Recorded) : Inside x a i k (f c) (s.setCall k f) where
  observed := h.observed.setCall h.acts h.opened h.call h.thread hf
  acts := by
    have := h.acts
    cases i <;> exact this
  free := h.free
  opened := h.opened
  call := by rw [getElem?_setCall_of h.call, if_pos rfl]
  thread := hf.thread.trans h.thread
  recorded := hr
  behind j d hd ht hj := by
    obtain ⟨d₀, hd₀, -, -, rfl | ⟨rfl, -⟩⟩ := noted_setCall h.call hf hd
    · exact h.behind j d hd₀ ht hj
    · exact absurd rfl hj

/-- The call is over, and nobody follows it. -/
theorem Inside.resting {k : ℕ} {c : Call} (h : Inside x a i k c s) (hend : c.ended.isSome)
    (hq : s.Quiet k) (hcalm : a.calm → c.key ∈ s.progress.outputs → c.key ∈ s.progress.finished) :
    Resting x a i s where
  observed := h.observed
  acts := h.acts
  free := h.free
  settled j d hd ht := by
    by_cases hj : j = k
    · subst hj
      obtain rfl := Option.some.inj (h.call.symm.trans hd)
      exact ⟨hend, hq⟩
    · exact ⟨(h.behind j d hd ht hj).1, (h.behind j d hd ht hj).2.1⟩
  calm ha d hd ht ho := by
    obtain ⟨j, hj⟩ := List.mem_iff_getElem?.mp hd
    by_cases hjk : j = k
    · subst hjk
      obtain rfl := Option.some.inj (h.call.symm.trans hj)
      exact hcalm ha ho
    · by_cases he : x.emit = true
      · exact (h.behind j d hj ht hjk).2.2 he
      · rw [progress_silent h.observed he] at ho
        cases ho

theorem Inside.complete {k : ℕ} {c : Call} (h : Inside x a i k c s)
    (hf : x.emit = true → c.key ∈ s.progress.finished) : Complete x i s := by
  intro he d hd ht
  obtain ⟨j, hj⟩ := List.mem_iff_getElem?.mp hd
  by_cases hjk : j = k
  · subst hjk
    obtain rfl := Option.some.inj (h.call.symm.trans hj)
    exact hf he
  · exact (h.behind j d hj ht hjk).2.2 he

/-! ## Reporting the end of a call -/

/-- A call stays in progress while the others tell something. -/
theorem calling_of_sameFor (h : SameFor i s p q) (hi : Acts x i s) (hk : Known i s p) {c : Call}
    (hc : s.Owns c) (ht : c.thread = i) (hcall : p.Calling c.key) : q.Calling c.key := by
  rcases hc with ⟨hm, hslot⟩ | ⟨n, job, m, hn, hj, hslot⟩
  · obtain rfl := ht.symm.trans hm
    have hmain := Progress.SameMain.main h
    have hkey : c.key.slot = c.slot := rfl
    unfold Progress.Calling at hcall ⊢
    rw [hkey, hmain]
    rw [hkey] at hcall
    cases hcs : c.slot with
    | work id n =>
        rw [hcs] at hslot
        cases hslot
    | _ => simpa only [hcs] using hcall
  · obtain rfl := ht.symm.trans hn
    have hsame := h hi.1 job hj (hk n job rfl hj)
    have hkey : c.key.slot = .work job.task.id m := hslot
    unfold Progress.Calling at hcall ⊢
    rw [hkey] at hcall ⊢
    simp only at hcall ⊢
    rw [hsame.task]
    exact hcall

/-- The place of a record's call is its task's to report. -/
theorem tells_callFinished {c : Call} (h : s.Owns c) (ht : c.thread = i) {r : CallRecord}
    (hr : r.key = c.key) : s.Tells i (.callFinished r) := by
  have hslot : r.slot = c.slot := congrArg Key.slot hr
  rcases h with ⟨hm, hs⟩ | ⟨n, job, m, hn, hj, hs⟩
  · obtain rfl := ht.symm.trans hm
    change EventData.teller (.callFinished r) = _
    simp only [EventData.teller, hslot]
    cases hcs : c.slot <;> simp [hcs, Slot.isMain] at hs ⊢
  · obtain rfl := ht.symm.trans hn
    exact ⟨job, hj, by simp only [EventData.teller, hslot, hs]⟩

theorem not_planCreated_of_callFinished (r : CallRecord) :
    ∀ n, i = .job n → ∀ tasks t, EventData.callFinished r ≠ .planCreated tasks t := by
  intro _ _ _ _ h
  cases h

/-- A report of a call ends no run. -/
theorem open_after_callFinished {r : CallRecord} (h : ¬ p.Ended) :
    ¬ (p.after (.callFinished r)).Ended := by
  intro hend
  rcases Progress.ended_after hend with hend | hm
  · exact h hend
  · cases hm

/-- **A task reports the end of its call.** -/
theorem Inside.wp_reportCall {k : ℕ} {c : Call} {Q : Except Exc Unit → Run → Prop}
    (h : Inside x a i k c s) (hend : c.ended.isSome)
    (hcall : x.emit = true → s.progress.Calling c.key)
    (hfresh : c.key ∉ s.progress.finished)
    (hok : ∀ s', Inside x a i k c s' → Steady i s s' → c.key ∈ s'.progress.finished ∨ ¬ x.emit →
      Since x i (s.progress.after (.callFinished c.record)) s s' → (Awake i s → Awake i s') →
      Q (.ok ()) s')
    (herror : ∀ s', Inside x a i k c s' → Steady i s s' → Went i s s' →
      c.key ∈ s'.progress.finished ∨ (a.Allows i .lock s' .cancel) →
      Q (.error cancelledError) s') :
    (reportCall x i k).wp (eyes x a i) Q s := by
  unfold reportCall
  rw [Coro.wp_bind, Coro.wp_read, Coro.outcome_ok]
  have hrec : s.recordAt k = some c.record := by
    unfold Run.recordAt
    rw [h.call]
    rfl
  rw [hrec]
  have hkey : c.record.key = c.key := h.recorded.key
  have hknown := known_of_acts h.acts
  have hfin : ∀ key ∈ s.progress.finished,
      key ∈ (s.progress.after (.callFinished c.record)).finished :=
    fun key hk => Progress.mem_finished_after.mpr (.inl hk)
  have hafter : x.emit = true → Known i s (s.progress.after (.callFinished c.record)) :=
    fun he => (hknown he).after (not_planCreated_of_callFinished _)
  have hopen' := open_after_callFinished (r := c.record) h.opened
  have hmine := h.observed.follows.owned c (List.mem_of_getElem? h.call)
  refine Observed.wp_event h.observed h.free (h.stills fun _ => hfresh) rfl
    (fun j hj => by have := h.acts; rw [hj] at this; cases this) hknown
    (fun s₁ hs _ => parks_of_acts h.acts hs) ?_ ?_ ?_
  · intro s₁ hobs hs hstory _ _ he _
    have hwent := went_of_steady hs
    have hcalls := sameCalls_of_steady hs h.acts
    have hc₁ := (hcalls k c h.thread).mp h.call
    have hacts : Acts x i s₁ := acts_of_went h.acts hwent fun he' n job hn hj _ =>
      isSome_of_sameFor hstory h.acts hn hj (hknown he' n job hn hj)
    have hfinished : c.key ∉ s₁.progress.finished := fun hk =>
      hfresh ((finished_of_sameFor hstory h.acts (hknown he) hmine h.thread).mp hk)
    have hcalling : s₁.progress.Calling c.key :=
      calling_of_sameFor hstory h.acts (hknown he) hmine h.thread (hcall he)
    have hopen₁ : ¬ s₁.progress.Ended :=
      open_of_sameFor hobs hacts (fun _ => hstory) h.opened
    refine .inl
      { expects := ⟨fun hm => hopen₁ (.inr hm), fun hm => absurd (.inl hm) hopen₁, ?_⟩
        tells := tells_callFinished (hobs.follows.owned c (List.mem_of_getElem? hc₁)) h.thread hkey
        done := fun _ _ _ _ _ hd => by cases hd
        finished := fun r hr => by
          cases hr
          exact ⟨c, List.mem_of_getElem? hc₁, hkey.symm, hend⟩
        link := fun j d hd ht hq => ?_
        atEnd := fun m hm => by cases hm
        told := fun m hm => by cases hm
        completes := fun _ _ hm => by cases hm }
    · change s₁.progress.Calling c.record.key ∧ c.record.key ∉ s₁.progress.finished
      rw [hkey]
      exact ⟨hcalling, hfinished⟩
    · have hd' := (hcalls j d ht).mpr hd
      by_cases hjk : j = k
      · subst hjk
        obtain rfl := Option.some.inj (h.call.symm.trans hd')
        exact Progress.mem_finished_after.mpr (.inr ⟨_, rfl, hkey⟩)
      · exact absurd ((hs.quiet hd' ht).mpr (h.behind j d hd' ht hjk).2.1) hq
  · intro s₁ hr hw
    refine hok s₁ (h.of_steady hr.observed hr.steady hr.free hr.story hfin hafter hopen') hr.steady
      ?_ (since_of_steady hr.steady hr.story) (hw (.inr (not_follower_of_acts h.acts)))
    by_cases he : x.emit = true
    · refine .inl ((finished_of_sameFor (hr.story he) h.acts (hafter he) hmine h.thread).mpr ?_)
      exact Progress.mem_finished_after.mpr (.inr ⟨_, rfl, hkey⟩)
    · exact .inr he
  · rintro s₁ he (hr | ⟨hr, -⟩)
    · exact herror s₁ (h.of_steady hr.observed hr.steady hr.free (fun _ => hr.story)
        (fun _ hk => hk) hknown h.opened) hr.steady (went_of_steady hr.steady) (.inr hr.allows)
    · refine herror s₁ (h.of_steady hr.observed hr.steady hr.free hr.story hfin hafter hopen')
        hr.steady (went_of_steady hr.steady) (.inl ?_)
      refine (finished_of_sameFor (hr.story he) h.acts (hafter he) hmine h.thread).mpr ?_
      exact Progress.mem_finished_after.mpr (.inr ⟨_, rfl, hkey⟩)

/-! ## Followers of a call -/

theorem does_setLive {k : ℕ} {c : Call} {f : Live → Live} (hk : k < s.lives.length)
    (hc : s.calls[k]? = some c) (ht : c.thread = i)
    (hw : ∀ l : Live, l.watched = true → (f l).watched = true)
    (hs : ∀ l : Live, (f l).stopped = l.stopped) : Does a i s (s.setLive k f) :=
  { Does.refl a i s with
    lives := fun j d hd hi => by
      rw [live_setLive hk, if_neg]
      · exact ⟨rfl, rfl⟩
      · rintro rfl
        rw [Option.some.inj (hc.symm.trans hd)] at ht
        exact hi ht
    stops := fun j _ => by
      rw [live_setLive hk]
      split
      · exact ⟨hw _, fun hstop => .inl (by rw [← hs]; exact hstop)⟩
      · exact ⟨id, .inl⟩ }

theorem wp_watch {k : ℕ} {c : Call} {Q : Except Exc Unit → Run → Prop}
    (h : Inside x a i k c s) (hcall : x.emit = true → s.progress.Calling c.key)
    (hQ : ∀ s', Inside x a i k c s' → Since x i s.progress s s' → s'.progress = s.progress →
      s'.calls = s.calls → Q (.ok ()) s') : (watch x k).wp (eyes x a i) Q s := by
  unfold watch
  split
  · rename_i hcond
    have hemit : x.emit = true := by
      simp only [Bool.and_eq_true] at hcond
      exact hcond.2
    have hk : k < s.lives.length := by
      rw [h.observed.follows.lives]
      exact (List.getElem?_eq_some_iff.mp h.call).1
    have hlive : ∀ j, j ≠ k →
        (s.setLive k fun l => { l with watched := true }).live j = s.live j := fun j hj => by
      rw [live_setLive hk, if_neg (Ne.symm hj)]
    have hquiet : ∀ j, j ≠ k →
        ((s.setLive k fun l => { l with watched := true }).Quiet j ↔ s.Quiet j) := fun j hj => by
      unfold Run.Quiet
      rw [hlive j hj]
    rw [Coro.wp_update]
    refine ⟨does_setLive hk h.call h.thread (fun _ _ => rfl) fun _ => rfl, hQ _ ?_
      (since_of_eq rfl rfl rfl rfl rfl) rfl rfl⟩
    · have hobs : Observed x a (some i) (s.setLive k fun l => { l with watched := true }) :=
        h.observed.relive h.opened
          { lives := by simp [Run.setLive], cancels := h.observed.works.cancels
            spread := fun _ hj => hj }
          (fun _ _ => hemit) (fun j d hd hq => ?_) fun j d hd ht hq => ?_
      · exact
          { h with
            observed := hobs
            acts := by
              have := h.acts
              cases i <;> exact this
            behind := fun j d hd ht hj => by
              obtain ⟨hend, hq, hf⟩ := h.behind j d hd ht hj
              exact ⟨hend, (hquiet j hj).mpr hq, hf⟩ }
      · by_cases hj : j = k
        · subst hj
          obtain rfl := Option.some.inj (h.call.symm.trans hd)
          exact .inr ⟨h.acts, h.thread, hcall hemit⟩
        · exact .inl fun hq' => hq ((hquiet j hj).mpr hq')
      · refine (hquiet j ?_).mpr hq
        rintro rfl
        rw [Option.some.inj (h.call.symm.trans hd)] at h
        exact ht h.thread
  · exact hQ s h (.refl x i s) rfl rfl

theorem wp_unwatch {k : ℕ} {c : Call} {Q : Except Exc Unit → Run → Prop}
    (h : Inside x a i k c s)
    (hQ : ∀ s', Inside x a i k c s' → s'.Quiet k → Since x i s.progress s s' →
      s'.progress = s.progress → s'.calls = s.calls → (Awake i s → Awake i s') →
      Q (.ok ()) s') : (unwatch k).wp (eyes x a i) Q s := by
  unfold unwatch
  rw [Coro.wp_bind, Coro.wp_read, Coro.outcome_ok]
  split
  · have hk : k < s.lives.length := by
      rw [h.observed.follows.lives]
      exact (List.getElem?_eq_some_iff.mp h.call).1
    set s₁ := (s.setLive k fun l => { l with stopped := true }).cancel (.follower k) with hs₁
    have hlive : ∀ j, j ≠ k → s₁.live j = s.live j := fun j hj => by
      change (s.setLive k _).live j = _
      rw [live_setLive hk, if_neg (Ne.symm hj)]
    have hquiet : ∀ j, j ≠ k → (s₁.Quiet j ↔ s.Quiet j) := fun j hj => by
      unfold Run.Quiet
      rw [hlive j hj]
    have hquietk : s₁.Quiet k := fun _ => by
      change ((s.setLive k _).live k).stopped = _
      rw [live_setLive hk, if_pos rfl]
    have hmem : ∀ j, j ∈ s₁.cancels ↔ j ∈ s.cancels ∨ j = .follower k := fun j => mem_cancel
    have hnodup : s₁.cancels.Nodup := nodup_cancel h.observed.works.cancels
    rw [Coro.wp_update]
    refine ⟨?_, hQ s₁ ?_ hquietk (since_of_eq rfl rfl rfl rfl rfl) rfl rfl ?_⟩
    · exact
        { Does.refl a i s with
          cancels := fun j _ hj => (hmem j).mpr (.inl hj)
          spares := fun _ hj => ((hmem _).mp hj).resolve_right (by simp)
          lives := fun j d hd hi => by
            rw [hlive]
            · exact ⟨rfl, rfl⟩
            · rintro rfl
              rw [Option.some.inj (hd.symm.trans h.call)] at hi
              exact hi h.thread
          stops := fun j _ => by
            by_cases hj : j = k
            · subst hj
              refine ⟨fun hw => ?_, fun _ => .inr ((hmem _).mpr (.inr rfl))⟩
              change ((s.setLive j _).live j).watched = _
              rw [live_setLive hk, if_pos rfl]
              exact hw
            · rw [hlive j hj]
              exact ⟨id, .inl⟩ }
    · have hobs : Observed x a (some i) s₁ := h.observed.relive h.opened
        { lives := by simp [hs₁, Run.setLive, Run.cancel], cancels := hnodup
          spread := fun j hj => (hmem j).mpr (.inl hj) }
        (fun j hw => ?_) (fun j d hd hq => ?_) fun j d hd ht hq => ?_
      · exact
          { h with
            observed := hobs
            acts := by
              have := h.acts
              cases i <;> exact this
            behind := fun j d hd ht hj => by
              obtain ⟨hend, hq, hf⟩ := h.behind j d hd ht hj
              exact ⟨hend, (hquiet j hj).mpr hq, hf⟩ }
      · by_cases hj : j = k
        · subst hj
          change ((s.setLive j _).live j).watched = _ at hw
          rw [live_setLive hk, if_pos rfl] at hw
          exact h.observed.follows.watched j hw
        · rw [hlive j hj] at hw
          exact h.observed.follows.watched j hw
      · by_cases hj : j = k
        · subst hj
          exact absurd hquietk hq
        · exact .inl fun hq' => hq ((hquiet j hj).mpr hq')
      · by_cases hj : j = k
        · subst hj
          exact hquietk
        · exact (hquiet j hj).mpr hq
    · rintro ⟨hc, -⟩
      refine ⟨fun hmem' => ?_, fun j hj => absurd hj (not_follower_of_acts h.acts j)⟩
      rcases (hmem i).mp hmem' with hmem' | rfl
      · exact hc hmem'
      · exact not_follower_of_acts h.acts k rfl
  · rename_i hw
    exact hQ s h (fun hw' => absurd hw' hw) (.refl x i s) rfl rfl id

/-! ## The provider's part -/

/-- The other calls of the task are where they were. -/
def Beside (i : Thread) (k : ℕ) (s s' : Run) : Prop :=
  ∀ (j : ℕ) (d : Call), s'.calls[j]? = some d → d.thread = i → j ≠ k → s.calls[j]? = some d

theorem Beside.trans {k : ℕ} (h : Beside i k s s') (h' : Beside i k s' s'') : Beside i k s s'' :=
  fun j d hd ht hj => h j d (h' j d hd ht hj) ht hj

theorem beside_of_eq {k : ℕ} (h : s'.calls = s.calls) : Beside i k s s' :=
  fun _ _ hd _ _ => h ▸ hd

theorem beside_of_steady {k : ℕ} (h : Steady i s s') (hi : Acts x i s) : Beside i k s s' :=
  fun j d hd ht _ => (sameCalls_of_steady h hi j d ht).mpr hd

theorem beside_setCall {k : ℕ} {c : Call} {f : Call → Call} (hc : s.calls[k]? = some c)
    (hf : Noted c (f c)) : Beside i k s (s.setCall k f) := by
  intro j d hd _ hj
  obtain ⟨d₀, hd₀, -, -, rfl | ⟨rfl, -⟩⟩ := noted_setCall hc hf hd
  · exact hd₀
  · exact absurd rfl hj

/-- A call that was made and whose end was not told. -/
structure Pending (x : Setup) (a : Premises) (i : Thread) (k : ℕ) (c : Call) (s s' : Run) :
    Prop where
  inside : Inside x a i k c s'
  since : Since x i s.progress s s'
  beside : Beside i k s s'
  calling : x.emit = true → s'.progress.Calling c.key
  fresh : c.key ∉ s'.progress.finished

/-- The call goes on. -/
theorem Pending.setCall {k : ℕ} {c : Call} (h : Pending x a i k c s s') {f : Call → Call}
    (hf : Noted c (f c)) (hr : (f c).Recorded) : Pending x a i k (f c) s (s'.setCall k f) where
  inside := h.inside.setCall hf hr
  since := h.since.trans (since_of_eq rfl rfl rfl rfl rfl)
  beside := h.beside.trans (beside_setCall h.inside.call hf)
  calling := by
    rw [hf.key]
    exact h.calling
  fresh := by
    rw [hf.key]
    exact h.fresh

/-- Every answer to a call takes back the cancellation that was asked for. -/
theorem answer_complete {k : ℕ} {m : Choice} {r : Except Exc (Option Reply)}
    (h : answer x i (.complete k) s m = some (r, s')) : s' = s.uncancel i := by
  rcases answer_cases h with ⟨-, -, -, -, rfl⟩ | ⟨-, -, h⟩
  · rfl
  · cases m <;> simp only [answerOp, answerComplete] at h <;> (try split at h) <;> cases h <;> rfl

/-- Only a cancellation cancels a call. -/
theorem answer_complete_cancelled {k : ℕ} {m : Choice}
    (h : answer x i (.complete k) s m = some (.error cancelledError, s')) : m = .cancel := by
  rcases answer_cases h with ⟨rfl, -⟩ | ⟨-, -, h⟩
  · rfl
  · cases m with
    | raise e =>
        simp only [answerOp, answerComplete] at h
        split at h
        · rename_i he
          simp only [Option.some.injEq, Prod.mk.injEq, Except.error.injEq] at h
          have hexc : e.isException = false := congrArg Exc.isException h.1
          rw [he] at hexc
          cases hexc
        · cases h
    | _ => cases h

/-- What the record says about a call's identity. -/
structure SameRecord (r r' : CallRecord) : Prop where
  tier : r'.tier = r.tier := by rfl
  operation : r'.operation = r.operation := by rfl
  taskId : r'.taskId = r.taskId := by rfl
  attempt : r'.attempt = r.attempt := by rfl
  forTier : r'.forTier = r.forTier := by rfl

/-- How a call ended is noted. -/
theorem Pending.endCall {k : ℕ} {c : Call} {r : Except Exc Json} {f : CallRecord → CallRecord}
    (h : Pending x a i k c s s') (hf : SameRecord c.record (f c.record))
    (ho : (f c.record).outcome ≠ .started) :
    Does a i s' (s'.endCall k r f) ∧
      Pending x a i k { c with record := f c.record, ended := some r } s (s'.endCall k r f) := by
  have hnoted : Noted c { c with record := f c.record, ended := some r } :=
    { thread := rfl
      key := by
        unfold Call.key Call.slot
        rw [hf.tier]
      ended := fun _ => rfl
      outcome := fun _ => ho }
  have hrec := h.inside.recorded
  refine ⟨does_setCall (not_follower_of_acts h.inside.acts) h.inside.call hnoted,
    h.setCall (f := fun c => { c with record := f c.record, ended := some r }) hnoted ?_⟩
  exact
    { operation := hf.operation.trans hrec.operation
      taskId := hf.taskId.trans hrec.taskId
      attempt := hf.attempt.trans hrec.attempt
      forTier := hf.forTier.trans hrec.forTier }

/-- **The provider's part of a call.** -/
theorem wp_complete {k : ℕ} {c : Call} {op : Operation} {Q : Except Exc Json → Run → Prop}
    (h : Inside x a i k c s) (hnone : c.ended = none)
    (hcall : x.emit = true → s.progress.Calling c.key)
    (ok : ∀ v s' c', Pending x a i k c' s s' → c'.key = c.key → c'.ended = some (.ok v) →
      Awake i s' → Q (.ok v) s')
    (failed : ∀ e s', Pending x a i k c s s' → e.isException = true → Awake i s' →
      Q (.error e) s')
    (cancelled : ∀ s', Pending x a i k c s s' →
      (a.calm → c.key ∈ s'.progress.outputs → c.key ∈ s'.progress.finished) →
      Q (.error cancelledError) s') :
    (complete x k op).wp (eyes x a i) Q s := by
  unfold complete
  rw [Coro.wp_bind]
  refine wp_watch h hcall fun s₀ h₀ hsince₀ hprog hcalls => ?_
  have hcall₀ : x.emit = true → s₀.progress.Calling c.key := by
    rw [hprog]
    exact hcall
  rw [Coro.outcome_ok, Coro.wp_bind]
  refine wp_ask (h₀.observed.park (parks_of_acts h₀.acts (.refl i s₀))
    (h₀.stills fun hend => by rw [hnone] at hend; cases hend))
    fun s₁ m r s' hr hobs hok hallow ha => ?_
  obtain rfl := answer_complete ha
  have hfree := free_of_relies hr h₀.free
  have hsteady : Steady i s₀ (s₁.uncancel i) := { hr.toSteady with }
  have hstory : SameFor i s₀ s₀.progress s₁.progress := hr.story
  have hknown := known_of_acts h₀.acts
  have hinside : Inside x a i k c (s₁.uncancel i) :=
    h₀.of_steady (observed_uncancel (hobs.wake i) hfree.2) hsteady hfree (fun _ => hstory)
      (fun _ hk => hk) hknown h₀.opened
  have hmine := h₀.observed.follows.owned c (List.mem_of_getElem? h₀.call)
  have hpending : Pending x a i k c s (s₁.uncancel i) :=
    { inside := hinside
      since := hsince₀.trans (since_of_steady hsteady fun _ => hstory)
      beside := (beside_of_eq hcalls).trans (beside_of_steady hsteady h₀.acts)
      calling := fun he => calling_of_sameFor hstory h₀.acts (hknown he) hmine h₀.thread (hcall₀ he)
      fresh := fun hk => by
        -- no other call has this place, and this one is not over
        obtain ⟨d, hd, hkey, hend⟩ := hobs.story.finished c.key hk
        obtain ⟨j, hj⟩ := List.mem_iff_getElem?.mp hd
        have hck : s₁.calls[k]? = some c := hinside.call
        obtain rfl := hok.eq_of_slot hj hck (congrArg Key.slot hkey)
        rw [Option.some.inj (hj.symm.trans hck), hnone] at hend
        cases hend }
  have hawake : Awake i (s₁.uncancel i) :=
    awake_uncancel hobs.works.cancels fun k hk => absurd hk (not_follower_of_acts h₀.acts k)
  rcases answer_complete_cases ha with ⟨reply, rfl, rfl⟩ | ⟨e, rfl, -, rfl | ⟨he, -⟩⟩
  · rw [Coro.outcome_ok]
    cases reply with
    | none => exact failed _ _ hpending rfl hawake
    | some reply =>
        simp only [takeReply]
        split
        · exact failed _ _ hpending rfl hawake
        · rw [Coro.wp_bind, Coro.wp_update]
          obtain ⟨hdoes, hpending'⟩ := hpending.endCall (r := .ok (openReply op reply).1)
            (f := CallRecord.complete x.lib op reply) {} fun h => by cases h
          exact ⟨hdoes, ok _ _ _ hpending' rfl rfl hawake⟩
  · exact cancelled _ hpending fun hcalm hout => by
      exact hallow.calm hcalm (answer_complete_cancelled ha) c (List.mem_of_getElem? hinside.call)
        hinside.thread hout
  · exact failed e _ hpending he hawake

/-! ## The rule of model calls -/

/-- What a call leaves when its end was reported. -/
structure Called (x : Setup) (a : Premises) (i : Thread) (key : Key) (s s' : Run) : Prop where
  resting : Resting x a i s'
  complete : Complete x i s'
  awake : Awake i s'
  told : ∃ r : CallRecord, r.key = key ∧ Since x i (s.progress.after (.callFinished r)) s s'
  made : ∀ d ∈ s'.calls, d.thread = i → d.slot = key.slot ∨ ∃ d₀ ∈ s.calls, d₀.slot = d.slot

/-- What a call leaves when it was cancelled. -/
structure Cut (x : Setup) (a : Premises) (i : Thread) (key : Key) (s s' : Run) : Prop where
  resting : Resting x a i s'
  went : Went i s s'
  opened : ¬ s'.progress.Ended
  made : ∀ d ∈ s'.calls, d.thread = i → d.slot = key.slot ∨ ∃ d₀ ∈ s.calls, d₀.slot = d.slot

section Made
variable {k : ℕ} {c : Call}

/-- A call whose end is reported. -/
theorem Pending.wp_report {Q : Except Exc Unit → Run → Prop} (h : Pending x a i k c s s')
    (hi : Acts x i s) (hend : c.ended.isSome)
    (hok : ∀ s'', Inside x a i k c s'' → (x.emit = true → c.key ∈ s''.progress.finished) →
      Since x i (s.progress.after (.callFinished c.record)) s s'' → Beside i k s s'' →
      (s'.Quiet k → s''.Quiet k) → (Awake i s' → Awake i s'') → Q (.ok ()) s'')
    (herror : ∀ s'', Inside x a i k c s'' → Went i s s'' → Beside i k s s'' →
      (s'.Quiet k → s''.Quiet k) →
      (a.calm → c.key ∈ s''.progress.outputs → c.key ∈ s''.progress.finished) →
      Q (.error cancelledError) s'') :
    (reportCall x i k).wp (eyes x a i) Q s' := by
  refine h.inside.wp_reportCall hend h.calling h.fresh ?_ ?_
  · intro s'' hin hs hfin hsince hawake
    refine hok s'' hin (fun he => hfin.resolve_right fun hne => hne he) ?_
      (h.beside.trans (beside_of_steady hs h.inside.acts)) ?_ hawake
    · exact h.since.tell (known_of_acts hi) hsince
    · exact (hs.quiet h.inside.call h.inside.thread).mpr
  · intro s'' hin hs hwent hfin
    refine herror s'' hin (h.since.went.trans hwent)
      (h.beside.trans (beside_of_steady hs h.inside.acts))
      (hs.quiet h.inside.call h.inside.thread).mpr fun hcalm hout => ?_
    rcases hfin with hfin | hallow
    · exact hfin
    · exact hallow.calm hcalm rfl c (List.mem_of_getElem? hin.call) hin.thread hout

/-- **What happens to a call that raises.** -/
theorem wp_callFailed {e : Exc} {Q : Except Exc Json → Run → Prop} (h : Pending x a i k c s s')
    (hi : Acts x i s)
    (failed : ∀ s'' c', e.isException = true → Inside x a i k c' s'' → c'.key = c.key →
      c'.ended.isSome → (x.emit = true → c'.key ∈ s''.progress.finished) →
      Since x i (s.progress.after (.callFinished c'.record)) s s'' → Beside i k s s'' →
      (Awake i s' → Awake i s'') → Q (.error e) s'')
    (cancelled : ∀ s'' c' e', e' = cancelledError ∨ e.isException = false ∧ e' = e →
      Inside x a i k c' s'' → c'.key = c.key → c'.ended.isSome → Went i s s'' → Beside i k s s'' →
      ((a.calm → c.key ∈ s'.progress.outputs → c.key ∈ s'.progress.finished) ∨
        e.isException = true →
        a.calm → c'.key ∈ s''.progress.outputs → c'.key ∈ s''.progress.finished) →
      Q (.error e') s'') :
    (callFailed x i k e).wp (eyes x a i) Q s' := by
  unfold callFailed
  rw [Coro.wp_bind, Coro.wp_read, Coro.outcome_ok]
  split
  · rename_i hexc
    rw [Coro.wp_bind, Coro.wp_update]
    obtain ⟨hdoes, h'⟩ := h.endCall (r := .error e) (f := fun r => { r with
      outcome := .failed
      elapsedMs := s'.elapsed k
      output := some ([], ((s'.live k).text).take liveLimit) }) {} fun h => by cases h
    refine ⟨hdoes, ?_⟩
    rw [Coro.outcome_ok, Coro.wp_bind]
    refine h'.wp_report hi rfl ?_ ?_
    · intro s'' hin hfin hsince hbeside _ hawake
      exact failed s'' _ hexc hin rfl rfl hfin hsince hbeside hawake
    · intro s'' hin hwent hbeside _ hcalm
      exact cancelled s'' _ _ (.inl rfl) hin rfl rfl hwent hbeside fun _ => hcalm
  · rename_i hexc
    rw [Coro.wp_bind, Coro.wp_update]
    obtain ⟨hdoes, h'⟩ := h.endCall (r := .error e) (f := fun r => { r with
      outcome := .cancelled, elapsedMs := s'.elapsed k }) {} fun h => by cases h
    refine ⟨hdoes, cancelled _ _ _ (.inr ⟨by simpa using hexc, rfl⟩) h'.inside rfl rfl
      h'.since.went h'.beside fun hor hcalm hout => ?_⟩
    exact hor.elim (fun hor => hor hcalm hout) fun hor => absurd hor hexc

/-- Writing down how long the call took. -/
theorem Pending.elapsed (h : Pending x a i k c s s') (ms : ℤ) :
    Does a i s' (s'.setCall k fun c => { c with record := { c.record with elapsedMs := ms } }) ∧
      Pending x a i k { c with record := { c.record with elapsedMs := ms } } s
        (s'.setCall k fun c => { c with record := { c.record with elapsedMs := ms } }) := by
  have hrec := h.inside.recorded
  have hout := h.inside.observed.story.recorded c (List.mem_of_getElem? h.inside.call)
  have hnoted : Noted c { c with record := { c.record with elapsedMs := ms } } :=
    { thread := rfl, key := rfl, ended := id, outcome := hout }
  exact ⟨does_setCall (not_follower_of_acts h.inside.acts) h.inside.call hnoted,
    h.setCall (f := fun c => { c with record := { c.record with elapsedMs := ms } }) hnoted
      ⟨hrec.operation, hrec.taskId, hrec.attempt, hrec.forTier⟩⟩

/-- A call that is made: from the provider's work to the report. -/
theorem Inside.wp_made {tier : Tier} {pl : Payload} {op : Operation}
    {Q : Except Exc (Json × CallRecord) → Run → Prop}
    (h : Inside x a i k c s) (hnone : c.ended = none)
    (hcall : x.emit = true → s.progress.Calling c.key)
    (called : ∀ r s' c', (∀ e, r = .error e → e.isException = true) → Resting x a i s' →
      Complete x i s' → Awake i s' → s'.calls[k]? = some c' → c'.key = c.key →
      Since x i (s.progress.after (.callFinished c'.record)) s s' → c'.Recorded →
      Beside i k s s' → Q r s')
    (cut : ∀ s' c', Resting x a i s' → s'.calls[k]? = some c' → c'.key = c.key → Went i s s' →
      ¬ s'.progress.Ended → Beside i k s s' → Q (.error cancelledError) s') :
    Coro.wp (eyes x a i) (do
      let value ← ((HorizonRelay.complete x k op).tryExcept (callFailed x i k)).tryFinally
        (unwatch k)
      Coro.update fun s => s.setCall k fun c =>
        { c with record := { c.record with elapsedMs := s.elapsed k } }
      reportCall x i k
      let s ← Coro.read
      pure (value, (s.recordAt k).getD (.start tier pl 0))) Q s := by
  rw [Coro.wp_bind, Coro.wp_tryFinally, Coro.wp_tryExcept]
  refine wp_complete h hnone hcall (fun v s₁ c₁ h₁ hkey₁ hend₁ hawake₁ => ?_)
    (fun e s₁ h₁ hexc hawake₁ => ?_) fun s₁ h₁ hcalm => ?_
  · -- the provider replied: the follower is stopped before the report
    rw [Coro.outcome_ok]
    refine wp_unwatch h₁.inside fun s₂ hin hq hsince hprog hcalls hawake₂ => ?_
    have h₂ : Pending x a i k c₁ s s₂ :=
      { inside := hin, since := h₁.since.trans hsince
        beside := h₁.beside.trans (beside_of_eq hcalls)
        calling := by rw [hprog]; exact h₁.calling
        fresh := by rw [hprog]; exact h₁.fresh }
    have hsome : c₁.ended.isSome := by rw [hend₁]; rfl
    rw [Coro.outcome_ok, Coro.outcome_ok, Coro.wp_bind, Coro.wp_update]
    obtain ⟨hdoes, h₃⟩ := h₂.elapsed (s₂.elapsed k)
    refine ⟨hdoes, ?_⟩
    rw [Coro.outcome_ok, Coro.wp_bind]
    refine h₃.wp_report h.acts hsome ?_ ?_
    · intro s₄ hin₄ hfin hsince₄ hbeside hquiet hawake₄
      rw [Coro.outcome_ok, Coro.wp_bind, Coro.wp_read, Coro.outcome_ok, Coro.wp_pure]
      have hrest := hin₄.resting hsome (hquiet hq) fun _ hout => by
        by_cases he : x.emit = true
        · exact hfin he
        · rw [progress_silent hin₄.observed he] at hout
          cases hout
      exact called _ s₄ _ (fun _ he => by cases he) hrest (hin₄.complete hfin)
        (hawake₄ (hawake₂ hawake₁)) hin₄.call hkey₁ hsince₄ hin₄.recorded hbeside
    · intro s₄ hin₄ hwent hbeside hquiet hcalm
      rw [Coro.outcome_error]
      exact cut s₄ _ (hin₄.resting hsome (hquiet hq) hcalm) hin₄.call hkey₁ hwent hin₄.opened
        hbeside
  · -- the call raised: its end is reported before the follower is stopped
    rw [Coro.outcome_error]
    refine wp_callFailed h₁ h.acts ?_ ?_
    · intro s₂ c₂ _ hin₂ hkey₂ hend₂ hfin hsince₂ hbeside₂ hawake₂
      refine wp_unwatch hin₂ fun s₃ hin₃ hq hsince₃ hprog hcalls hawake₃ => ?_
      rw [Coro.outcome_ok, Coro.outcome_error]
      have hfin₃ : x.emit = true → c₂.key ∈ s₃.progress.finished := by
        rw [hprog]
        exact hfin
      refine called _ s₃ c₂ (fun e' he' => by cases he'; exact hexc)
        (hin₃.resting hend₂ hq fun _ hout => ?_) (hin₃.complete hfin₃)
        (hawake₃ (hawake₂ hawake₁)) hin₃.call hkey₂ (hsince₂.trans hsince₃) hin₃.recorded
        (hbeside₂.trans (beside_of_eq hcalls))
      by_cases he : x.emit = true
      · exact hfin₃ he
      · rw [progress_silent hin₃.observed he] at hout
        cases hout
    · rintro s₂ c₂ e' (rfl | ⟨hne, -⟩) hin₂ hkey₂ hend₂ hwent₂ hbeside₂ hcalm
      · refine wp_unwatch hin₂ fun s₃ hin₃ hq hsince₃ hprog hcalls _ => ?_
        rw [Coro.outcome_ok, Coro.outcome_error]
        refine cut s₃ c₂ (hin₃.resting hend₂ hq ?_) hin₃.call hkey₂ (hwent₂.trans hsince₃.went)
          hin₃.opened (hbeside₂.trans (beside_of_eq hcalls))
        rw [hprog]
        exact hcalm (.inr hexc)
      · rw [hexc] at hne
        cases hne
  · rw [Coro.outcome_error]
    refine wp_callFailed h₁ h.acts ?_ ?_
    · intro s₂ c₂ hexc
      cases hexc
    · intro s₂ c₂ e' he' hin₂ hkey₂ hend₂ hwent₂ hbeside₂ hcalm₂
      obtain rfl : e' = cancelledError := he'.elim id And.right
      refine wp_unwatch hin₂ fun s₃ hin₃ hq hsince₃ hprog hcalls _ => ?_
      rw [Coro.outcome_ok, Coro.outcome_error]
      refine cut s₃ c₂ (hin₃.resting hend₂ hq ?_) hin₃.call hkey₂ (hwent₂.trans hsince₃.went)
        hin₃.opened (hbeside₂.trans (beside_of_eq hcalls))
      rw [hprog]
      exact hcalm₂ (.inl hcalm)

end Made

/-- **The rule of model calls.** The cloud may refuse the call. Otherwise its end is
reported, or the task is cancelled. -/
theorem Resting.wp_callWithRecord {tier : Tier} {pl : Payload}
    {Q : Except Exc (Json × CallRecord) → Run → Prop} (h : Resting x a i s)
    (hcomp : Complete x i s) (hopen : ¬ s.progress.Ended) (hplace : Places i pl s)
    (hall : pl.slot = .synthesize → ∀ job ∈ s.jobs, ∃ v, job.outcome = some (.ok v))
    (hcall : x.emit = true → s.progress.Calling ⟨pl.slot, tier⟩)
    (refused : ∀ e, tier = .cloud → e.cls = .budget → Q (.error e) s)
    (called : ∀ r s', (∀ e, r = .error e → e.isException = true) →
      Called x a i ⟨pl.slot, tier⟩ s s' → Q r s')
    (cut : ∀ s', Cut x a i ⟨pl.slot, tier⟩ s s' → Q (.error cancelledError) s') :
    (callWithRecord x i tier pl).wp (eyes x a i) Q s := by
  have hne := not_follower_of_acts h.acts
  -- what follows the charge
  have hmade : ∀ s₁ : Run, Recording i s s₁ → s₁.results = s.results →
      s₁.outcome = s.outcome → s₁.gathering = s.gathering →
      Coro.wp (eyes x a i) (do
        let s ← Coro.read
        let k := s.calls.length
        Coro.update (Run.addCall i tier pl)
        let value ← ((complete x k pl.operation).tryExcept (callFailed x i k)).tryFinally
          (unwatch k)
        Coro.update fun s => s.setCall k fun c =>
          { c with record := { c.record with elapsedMs := s.elapsed k } }
        reportCall x i k
        let s ← Coro.read
        pure (value, (s.recordAt k).getD (.start tier pl 0))) Q s₁ := by
    intro s₁ hr hres hout hg
    have hprog : s₁.progress = s.progress := hr.scene.progress
    have hlen : s₁.lives.length = s₁.calls.length := by
      rw [hr.lives, hr.calls]
      exact h.observed.follows.lives
    have hsince : Since x i s.progress s s₁ :=
      since_of_eq hr.jobs hres hout hg hprog
    have hacts : Acts x i s₁ := acts_of_went h.acts hsince.went fun _ n job _ _ hid => by
      rw [hprog]
      exact hid
    have hobs : Observed x a (some i) (s₁.addCall i tier pl) :=
      (h.observed.record hopen hr).addCall hacts (by rw [hprog]; exact hopen)
        (by unfold Places at hplace ⊢; rw [hr.jobs]; exact hplace) (by rw [hr.jobs]; exact hall)
    have hsince' : Since x i s.progress s (s₁.addCall i tier pl) :=
      hsince.trans (since_of_eq rfl rfl rfl rfl progress_addCall)
    have hold : ∀ (j : ℕ) (d : Call), (s₁.addCall i tier pl).calls[j]? = some d →
        j ≠ s₁.calls.length → s.calls[j]? = some d := by
      intro j d hd hj
      rw [← hr.calls]
      exact (getElem?_addCall hd).resolve_right fun hd => hj hd.1
    have hin : Inside x a i s₁.calls.length (s₁.newCall i tier pl) (s₁.addCall i tier pl) :=
      { observed := hobs
        acts := acts_of_went hacts (went_of_eq rfl rfl rfl rfl) fun _ n job _ _ hid => by
          rw [progress_addCall]
          exact hid
        free := by
          have hfree := h.free
          unfold Free at hfree ⊢
          change s₁.eventLock.holder ≠ some i ∧ i ∉ s₁.eventLock.waiters
          rw [hr.lock]
          exact hfree
        opened := by
          rw [progress_addCall, hprog]
          exact hopen
        call := by simp [Run.addCall]
        thread := rfl
        recorded := ⟨rfl, rfl, rfl, rfl⟩
        behind := fun j d hd ht hj => by
          have hd' := hold j d hd hj
          obtain ⟨hend, hq⟩ := h.settled j d hd' ht
          refine ⟨hend, ?_, fun he => ?_⟩
          · rw [quiet_addCall hlen, hr.scene.quiet]
            exact hq
          · rw [progress_addCall, hprog]
            exact hcomp he d (List.mem_of_getElem? hd') ht }
    have hmade : ∀ s' : Run, Beside i s₁.calls.length (s₁.addCall i tier pl) s' → ∀ c' : Call,
        c'.slot = pl.slot → s'.calls[s₁.calls.length]? = some c' → ∀ d ∈ s'.calls, d.thread = i →
        d.slot = pl.slot ∨ ∃ d₀ ∈ s.calls, d₀.slot = d.slot := by
      intro s' hbeside c' hslot hc' d hd ht
      obtain ⟨j, hj⟩ := List.mem_iff_getElem?.mp hd
      by_cases hjk : j = s₁.calls.length
      · subst hjk
        obtain rfl := Option.some.inj (hc'.symm.trans hj)
        exact .inl hslot
      · exact .inr ⟨d, List.mem_of_getElem? (hold j d (hbeside j d hj ht hjk) hjk), rfl⟩
    rw [Coro.wp_bind, Coro.wp_read, Coro.outcome_ok, Coro.wp_bind, Coro.wp_update]
    refine ⟨does_addCall hlen hne, ?_⟩
    rw [Coro.outcome_ok]
    refine hin.wp_made rfl (fun he => ?_) ?_ ?_
    · rw [progress_addCall, hprog]
      exact hcall he
    · intro r s' c' hr' hrest hcomp' hawake hc' hkey hsince₂ hrec hbeside
      have hslot : c'.slot = pl.slot := congrArg Key.slot hkey
      exact called r s' hr' ⟨hrest, hcomp', hawake, ⟨c'.record, hrec.key.trans hkey,
        hsince'.tell (known_of_acts h.acts) hsince₂⟩, hmade s' hbeside c' hslot hc'⟩
    · intro s' c' hrest hc' hkey hwent hopen' hbeside
      exact cut s' ⟨hrest, hsince'.went.trans hwent, hopen',
        hmade s' hbeside c' (congrArg Key.slot hkey) hc'⟩
  unfold callWithRecord spend
  rw [Coro.wp_bind, Coro.wp_bind, Coro.wp_read, Coro.outcome_ok]
  split
  · rename_i ht
    rw [Coro.wp_bind, Coro.wp_update, CloudBudget.spend_eq]
    cases hb : s.budget.spent x.limits pl.operation with
    | error e =>
        refine ⟨.refl a i s, ?_⟩
        rw [Coro.outcome_ok, Coro.wp_ofExcept, Coro.outcome_error]
        exact refused e ht (CloudBudget.spent_eq_error hb).1
    | ok b =>
        have hr : Recording i s { s with budget := b } := .unseen
        refine ⟨hr.does, ?_⟩
        rw [Coro.outcome_ok, Coro.wp_ofExcept, Coro.outcome_ok]
        exact hmade _ hr rfl rfl rfl
  · rw [Coro.wp_pure, Coro.outcome_ok]
    exact hmade s .unseen rfl rfl rfl

end HorizonRelay.Observed
