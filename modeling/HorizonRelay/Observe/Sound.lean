import HorizonRelay.Observe.Request

/-!
# Soundness of the second outline

Every task of a run keeps the outline of what observers see, so `Observed` holds in every
reachable state, under every behaviour of the environment that keeps to the premises.

## Main definitions

* `Turning` — a follower between two turns.

## Main results

* `wp_follow` — one turn of a follower.
* `observing_holds` — the obligations of the outline.
* `observed_of_reach` — what observers see of a reachable state.
-/

namespace HorizonRelay.Observed

open Py Coop

variable {x : Setup} {a : Premises} {s s' : Run} {k : ℕ}

/-! ## Followers -/

/-- A follower between two turns: nobody asked it to stop, or it was kept from stopping. -/
structure Turning (x : Setup) (a : Premises) (k : ℕ) (s : Run) : Prop where
  observed : Observed x a none s
  going : Awake (.follower k) s ∨ Outlives a k s
  free : Free (.follower k) s

/-- A follower makes no calls. -/
theorem stills_of_follower {who : Option Thread} (h : Observed x a who s) :
    Stills (.follower k) s := by
  intro j c hc ht
  rcases h.follows.owned c (List.mem_of_getElem? hc) with ⟨hm, -⟩ | ⟨n, _, _, hn, -⟩
  · rw [ht] at hm
    cases hm
  · rw [ht] at hn
    cases hn

/-- A call that is followed is not over, and neither is the run. -/
theorem open_of_followed {who : Option Thread} (h : Observed x a who s) (hq : ¬ s.Quiet k) :
    ¬ s.progress.Ended :=
  fun hend => hq ((h.closes.atEnd hend).quiet k)

/-- **What a follower publishes is fit to be told**: its call is in progress. -/
theorem tellable_callOutput {c : Call} {record : CallRecord} {o : Str} {n : ℕ}
    (h : Observed x a (some (.follower k)) s) (hok : s.toLedger.Ok x anyEnd)
    (hc : s.calls[k]? = some c) (hkey : record.key = c.key) (hq : ¬ s.Quiet k)
    (hheld : s.eventLock.holder = some (.follower k)) :
    Tellable x a (.follower k) (.callOutput record o n) s := by
  have hopen := open_of_followed h hq
  have hthread : c.thread ≠ .follower k := by
    rcases h.follows.busy k c hc hq with ht | ⟨n, ht, -⟩ <;> rw [ht] <;> simp
  have hunfinished : c.key ∉ s.progress.finished := by
    intro hf
    obtain ⟨c', hc', hkey', hend⟩ := h.story.finished _ hf
    obtain ⟨j, hj⟩ := List.mem_iff_getElem?.mp hc'
    obtain rfl := hok.eq_of_slot hj hc (congrArg Key.slot hkey')
    obtain rfl := Option.some.inj (hj.symm.trans hc)
    rcases h.follows.still j c' hc (fun heq => hthread (Option.some.inj heq).symm) hf hend with
      hquiet | hholder
    · exact hq hquiet
    · rw [hheld] at hholder
      exact hthread (Option.some.inj hholder).symm
  exact
    { expects := ⟨fun hm => hopen (.inr hm), fun hm => absurd (.inl hm) hopen, by
        change s.progress.Calling record.key ∧ record.key ∉ s.progress.finished
        rw [hkey]
        exact ⟨h.follows.link k c hc hq hunfinished, hunfinished⟩⟩
      tells := ⟨c, hc, hthread, by rw [← hkey]; rfl, .inl hq⟩
      done := fun id t m j r hd => by cases hd
      finished := fun r hd => by cases hd
      link := fun j d hd ht => by
        exfalso
        rcases h.follows.owned d (List.mem_of_getElem? hd) with ⟨hm, -⟩ | ⟨m, _, _, hm, -⟩ <;>
          rw [ht] at hm <;> cases hm
      atEnd := fun m hm => by cases hm
      told := fun m hm => by cases hm
      completes := fun _ _ hm => by cases hm }

/-- What a call has written, and shown, does not matter. -/
structure Texts (f : Live → Live) : Prop where
  watched : ∀ l, (f l).watched = l.watched := by exact fun _ => rfl
  stopped : ∀ l, (f l).stopped = l.stopped := by exact fun _ => rfl

variable {f : Live → Live}

theorem live_texts (hf : Texts f) (j : ℕ) : ((s.setLive k f).live j).watched = (s.live j).watched ∧
    ((s.setLive k f).live j).stopped = (s.live j).stopped := by
  unfold Run.live Run.setLive
  simp only [List.getElem?_modify]
  cases s.lives[j]? with
  | none => exact ⟨rfl, rfl⟩
  | some l =>
      simp only [Option.map_eq_map, Option.map_some, Option.getD_some]
      split
      · exact ⟨hf.watched l, hf.stopped l⟩
      · exact ⟨rfl, rfl⟩

theorem observed_texts {who : Option Thread} (h : Observed x a who s) (hf : Texts f) :
    Observed x a who (s.setLive k f) :=
  h.congr_lives rfl (.refl _)
    { length := by simp [Run.setLive], watched := fun j => (live_texts hf j).1
      stopped := fun j => (live_texts hf j).2 }
    (fun _ => rfl) { h.queue with } (fun _ _ hj => hj) h.works.cancels fun _ hn => hn

/-- **What a follower that was kept from stopping publishes is fit to be told**: it told some
output of its call before. -/
theorem fit_of_outlives {c : Call} {record : CallRecord} {o : Str} {n : ℕ} {who : Option Thread}
    (h : Observed x a who s) (hlives : Outlives a k s) (hc : s.calls[k]? = some c)
    (hkey : record.key = c.key) : Fit x a (.follower k) (.callOutput record o n) s := by
  obtain ⟨ha, d, hd, hk⟩ := hlives
  obtain rfl := Option.some.inj (hc.symm.trans hd)
  refine .inr ⟨ha, ⟨record, o, n, rfl, hkey ▸ hk⟩, c, hc, ?_, by rw [← hkey]; rfl, .inr hk⟩
  rcases h.follows.owned c (List.mem_of_getElem? hc) with ⟨ht, -⟩ | ⟨m, _, _, ht, -⟩ <;>
    rw [ht] <;> simp

/-- Publishing what a call has written, while its follower is to go on. -/
theorem wp_reportOutput {text : Str} {Q : Except Exc Unit → Run → Prop}
    (hobs : Observed x a (some (.follower k)) s) (hfree : Free (.follower k) s)
    (hok : s.toLedger.Ok x anyEnd) (hgoing : Awake (.follower k) s ∨ Outlives a k s)
    (hw : (s.live k).watched = true)
    (told : ∀ s', Observed x a (some (.follower k)) s' →
      Awake (.follower k) s' ∨ Outlives a k s' → Free (.follower k) s' → Q (.ok ()) s')
    (stopped : ∀ s', Observed x a (some (.follower k)) s' → Q (.error cancelledError) s') :
    (reportOutput x k text).wp (eyes x a (.follower k)) Q s := by
  unfold reportOutput
  rw [Coro.wp_bind, Coro.wp_read, Coro.outcome_ok]
  split
  · rename_i record hrecord
    obtain ⟨c, hcall, rfl⟩ := Option.map_eq_some_iff.mp hrecord
    have hkey : c.record.key = c.key := (hok.calls.recorded c (List.mem_of_getElem? hcall)).key
    refine Observed.wp_event hobs hfree (stills_of_follower hobs) rfl
      (fun j hj => hok) (fun _ n job hn => by cases hn) (fun _ _ _ => trivial) ?_
      (fun s' h' hw' => ?_) fun s' _ h' => ?_
    · intro s' hobs' hs' _ hawake' hheld' _ hok'
      obtain ⟨c', hc', -, hkey'⟩ := hs'.keys k c hcall
      rcases hgoing with hawake | hlives
      · refine .inl (tellable_callOutput hobs' (hok' k rfl) hc' (hkey.trans hkey'.symm) ?_ hheld')
        intro hq
        have hstopped := hq (hs'.watched k rfl hw)
        rw [(hawake' hawake).2 k rfl] at hstopped
        cases hstopped
      · exact fit_of_outlives hobs' (hlives.of_steady hs') hc' (hkey.trans hkey'.symm)
    · refine told s' h'.observed ?_ h'.free
      by_cases ha : a.heeded
      · exact .inl (hw' (.inl ha) (hgoing.resolve_right fun h => h.1 ha))
      · -- whether or not its cancellation was caught, the output of its call was told
        obtain ⟨c', hc', -, hkey'⟩ := h'.steady.keys k c hcall
        have hout := h'.output (hobs.follows.watched k hw) _ _ _ rfl
        exact .inr ⟨ha, c', hc', (hkey.trans hkey'.symm) ▸ hout⟩
    · rcases h' with h' | ⟨h', -⟩
      · exact stopped s' h'.observed
      · exact stopped s' h'.observed
  · exact told _ hobs hgoing hfree

/-- **One turn of a follower.** -/
theorem wp_follow {Q : Except Exc Bool → Run → Prop} (h : Turning x a k s)
    (hQ : ∀ r s', Observed x a none s' → (r = .ok true → Turning x a k s') → Q r s') :
    (follow x k).wp (eyes x a (.follower k)) Q s := by
  have hend : ∀ (b : Bool) (s' : Run), Observed x a (some (.follower k)) s' →
      (b = true → (Awake (.follower k) s' ∨ Outlives a k s') ∧ Free (.follower k) s') →
      Q (.ok b) s' := by
    intro b s' hobs hb
    have hpark := hobs.park trivial (stills_of_follower hobs)
    exact hQ _ s' hpark fun hr => ⟨hpark, (hb (Except.ok.inj hr)).1, (hb (Except.ok.inj hr)).2⟩
  have hstop : ∀ s', Observed x a (some (.follower k)) s' →
      Coro.wp (eyes x a (.follower k))
        (if cancelledError.isException then .raise cancelledError else pure false) Q s' := by
    intro s' hobs
    rw [if_neg (by decide), Coro.wp_pure]
    exact hend false s' hobs fun hb => by cases hb
  unfold follow
  rw [Coro.wp_tryExcept, Coro.wp_bind]
  refine wp_ask h.observed fun s₁ m r s₂ hr hs₁ hok _ ha => ?_
  have hfree₁ := free_of_relies hr h.free
  rcases answer_cases ha with ⟨-, -, -, rfl, rfl⟩ | ⟨-, hc, ha⟩
  · exact hstop _ (observed_uncancel (hs₁.wake _) hfree₁.2)
  · replace ha := (ordinary_eq_some ha).2
    split at ha <;> cases ha
    rename_i hw
    have hgoing : Awake (.follower k) s₁ ∨ Outlives a k s₁ :=
      h.going.imp (hr.awake fun hmem => Bool.noConfusion (hc hmem)) fun h => h.of_steady hr.toSteady
    rw [Coro.outcome_ok, Coro.wp_bind, Coro.wp_read, Coro.outcome_ok]
    simp only
    split
    · exact hend true s₁ (hs₁.wake _) fun _ => ⟨hgoing, hfree₁⟩
    · rw [Coro.wp_bind, Coro.wp_update]
      have htexts : Texts fun l => { l with shown := (s₁.live k).text.length } := {}
      have hobs := observed_texts (k := k) (hs₁.wake (.follower k)) htexts
      refine ⟨{ Does.refl a (.follower k) s₁ with
                lives := fun j _ _ _ => live_texts htexts j
                stops := fun j _ => ?_ }, ?_⟩
      · rw [(live_texts htexts j).1, (live_texts htexts j).2]
        exact ⟨id, .inl⟩
      · rw [Coro.outcome_ok, Coro.wp_bind]
        refine wp_reportOutput hobs hfree₁ hok (hgoing.imp_left fun hawake => ?_) ?_
          (fun s₃ hobs₃ hgoing₃ hfree₃ => hend true s₃ hobs₃ fun _ => ⟨hgoing₃, hfree₃⟩)
          fun s₃ hobs₃ => hstop s₃ hobs₃
        · exact ⟨hawake.1, fun j hj => by rw [(live_texts htexts j).2]; exact hawake.2 j hj⟩
        · rw [(live_texts htexts k).1]
          exact hw

/-! ## The threads -/

theorem wp_start_follower (h : Turning x a k s) :
    (start x (.follower k)).wp (eyes x a (.follower k)) ((observing x a).post (.follower k)) s := by
  unfold start
  rw [Coro.wp_bind]
  refine wp_follow h fun r s' hobs hr => ?_
  cases r with
  | error e => exact ⟨hobs, .refl a _ s', fun _ _ hb => by cases hb⟩
  | ok b =>
      rw [Coro.outcome_ok, Coro.wp_pure]
      refine ⟨hobs, .refl a _ s', fun j hj hb => ?_⟩
      cases hj
      cases hb
      obtain ⟨hobs', hw, hf⟩ := hr rfl
      exact ⟨hobs', hw, hf⟩

theorem wp_start_job {n : ℕ} (hobs : Observed x a none s) (h : Unstarted n s) :
    (start x (.job n)).wp (eyes x a (.job n)) ((observing x a).post (.job n)) s := by
  unfold start
  rw [Coro.wp_bind]
  refine wp_worker hobs h fun job r s' hend => ?_
  cases r with
  | error e => exact ⟨hend.finish, does_endJob _, fun _ hj => by cases hj⟩
  | ok v => exact ⟨hend.finish, does_endJob _, fun _ hj => by cases hj⟩

theorem wp_start_main (h : Stands x a ⟨.begun, [], none, []⟩ s) :
    (start x .main).wp (eyes x a .main) ((observing x a).post .main) s := by
  unfold start
  rw [Coro.wp_bind]
  refine h.wp_run (fun r s' hrest => ?_) fun e s' hclose => ?_
  · obtain ⟨hdoes, hobs⟩ := hrest.finish (r := .ok r) fun _ _ e he => by cases he
    exact ⟨hobs, hdoes, fun _ hj => by cases hj⟩
  · obtain ⟨hdoes, hobs⟩ := hclose.resting.finish (r := .error e) fun ha hm =>
      absurd hm (hclose.careful ha)
    exact ⟨hobs, hdoes, fun _ hj => by cases hj⟩

theorem observed_empty (x : Setup) (a : Premises) : Observed x a none {} where
  queue := queue_empty
  story :=
    { silent := fun _ => rfl, accepts := .nil
      finished := by simp [Run.progress, told, handed, Progress.of]
      outputs := by simp [Run.progress, told, handed, Progress.of]
      done := fun id t h => by cases h
      requests := rfl, recorded := by simp, flags := by simp [handed] }
  follows :=
    { lives := rfl, owned := by simp, watched := fun k h => by simp [Run.live] at h
      busy := by simp, link := by simp, still := by simp }
  works :=
    { ids := List.nodup_nil, planned := by simp, fresh := fun _ tasks h => by cases h
      assembled := by simp, jobs := by simp, gathered := by simp [Ledger.running]
      cancels := List.nodup_nil }
  closes :=
    { atEnd := fun h => by rcases h with h | h <;> cases h
      last := .of_open (by simp [handed]), metrics := by simp [handed]
      completes := fun _ h => by cases h
      returns := fun _ h => by cases h }

theorem stands_empty (x : Setup) (a : Premises) : Stands x a ⟨.begun, [], none, []⟩ {} :=
  stands_start ((observed_empty x a).wake .main) rfl ⟨by simp, by simp⟩
    ⟨by simp, fun _ hk => by cases hk⟩ rfl

/-! ## The environment -/

/-- Cancelling the caller's task asks tasks to stop; nothing else that matters happens. -/
theorem cancelMain_spreads (s : Run) : ∃ cancels b,
    s.cancelMain = { s with cancels, gatherCancelled := b } ∧ s.cancels ⊆ cancels ∧
      (s.cancels.Nodup → cancels.Nodup) := by
  unfold Run.cancelMain
  split
  · split
    · obtain ⟨cancels, heq, hsub, hnodup, -⟩ := cancelJobs_spreads ‹_› s
      exact ⟨cancels, true, by rw [heq], hsub, hnodup⟩
    · exact ⟨(s.cancel .main).cancels, s.gatherCancelled, rfl,
        fun i hi => mem_cancel.mpr (.inl hi), nodup_cancel⟩
  · exact ⟨(s.cancel .main).cancels, s.gatherCancelled, rfl,
      fun i hi => mem_cancel.mpr (.inl hi), nodup_cancel⟩

/-- What an interruption leaves: more tasks are asked to stop. -/
theorem move_interrupts {v : Move} (h : move x v s = some s') (hv : v.Interrupts) :
    ∃ cancels b timer outside,
      s' = { s with cancels, gatherCancelled := b, timer, outside } ∧ s.cancels ⊆ cancels ∧
        (s.cancels.Nodup → cancels.Nodup) := by
  obtain ⟨cancels, b, heq, hsub, hnodup⟩ := cancelMain_spreads s
  cases v with
  | tick | pace | delta => cases hv
  | deadline =>
      simp only [move] at h
      split at h <;> cases h
      exact ⟨cancels, b, .expired, s.outside, by rw [heq], hsub, hnodup⟩
  | cancelRun =>
      simp only [move] at h
      split at h
      · cases h
      · split at h <;> cases h
        · exact ⟨s.cancels, s.gatherCancelled, s.timer, true, rfl, List.Subset.refl _, id⟩
        · exact ⟨cancels, b, s.timer, true, by rw [heq], hsub, hnodup⟩

/-- **The environment's own moves keep what observers see.** -/
theorem observed_move {v : Move} (hobs : Observed x a none s) (h : move x v s = some s') :
    Observed x a none s' := by
  cases v with
  | tick d =>
      simp only [move] at h
      split at h <;> cases h
      exact hobs.congr rfl (.refl _) rfl (fun _ => rfl) { hobs.queue with } (fun _ _ hj => hj)
        hobs.works.cancels fun _ hn => hn
  | pace delay lag =>
      cases h
      exact hobs.congr rfl (.refl _) rfl (fun _ => rfl) { hobs.queue with } (fun _ _ hj => hj)
        hobs.works.cancels fun _ hn => hn
  | deadline | cancelRun =>
      obtain ⟨cancels, b, timer, outside, rfl, hsub, hnodup⟩ := move_interrupts h trivial
      exact hobs.congr rfl (.refl _) rfl (fun _ => rfl)
        (hobs.queue.congr rfl rfl rfl rfl fun _ _ hj => hsub hj) (fun _ _ hj => hj)
        (hnodup hobs.works.cancels) fun _ hn => hn
  | delta k text =>
      simp only [move] at h
      split at h
      · rename_i c hc
        split at h <;> cases h
        rename_i hlive
        have hpark := observed_texts (k := k) hobs
          (show Texts fun l => { l with text := l.text ++ text } from {})
        split
        · exact hpark.congr rfl (.concat _ ⟨rfl, rfl⟩) rfl (fun _ => rfl)
            (hpark.queue.see (fun _ => rfl) rfl) (fun _ _ hj => hj) hpark.works.cancels
            fun _ hn => hn
        · exact hpark
      · cases h

theorem relies_delta (a : Premises) (j : Thread) (s : Run) (k : ℕ) (text : Str) :
    Relies a j s (s.see (.delta k text)) := by
  have hprog : (s.see (.delta k text)).progress = s.progress :=
    progress_congr (handed_concat_delta _ _ _)
  exact
    { Relies.refl a j s with
      outputs := fun _ _ _ _ _ hk => by rwa [hprog] at hk
      told := by rw [hprog]; exact List.Subset.refl _
      held := fun _ => ⟨handed_concat_delta _ _ _, by simp [Run.see, Entry.turn]⟩
      story := by
        rw [hprog]
        exact .refl j s _ }

/-- **Every task may rely on the environment.** -/
theorem relies_move {v : Move} {j : Thread} (h : move x v s = some s')
    (hcareful : a.careful → v.Interrupts → s.progress.main ≠ .completed) : Relies a j s s' := by
  cases v with
  | tick d =>
      simp only [move] at h
      split at h <;> cases h
      exact { Relies.refl a j s with }
  | pace delay lag => cases h; exact { Relies.refl a j s with }
  | deadline | cancelRun =>
      obtain ⟨cancels, b, timer, outside, rfl, hsub, -⟩ := move_interrupts h trivial
      exact
        { Relies.refl a j s with
          cancels := fun hi => hsub hi
          stopped := fun _ _ => .inl
          careful := fun _ ha hm => absurd hm (hcareful ha trivial) }
  | delta k text =>
      simp only [move] at h
      split at h
      · split at h <;> cases h
        have htexts : Texts fun l => { l with text := l.text ++ text } := {}
        have hr : Relies a j s (s.setLive k fun l => { l with text := l.text ++ text }) :=
          { Relies.refl a j s with
            lives := fun i _ _ _ => live_texts htexts i
            watched := fun i _ hw => by rw [(live_texts htexts i).1]; exact hw
            stopped := fun i _ hs => .inl (by rwa [(live_texts htexts i).2] at hs) }
        split
        · exact hr.trans (relies_delta a j _ k text)
        · exact hr
      · cases h

/-! ## Soundness -/

/-- **The tasks of a run keep the outline of what observers see.** -/
theorem observing_holds (x : Setup) (a : Premises) :
    (observing x a).Holds x.system {} a.Admits where
  rely_refl i s := .refl a i s
  rely_trans _ := .trans
  guar_refl i s := .refl a i s
  guar_trans _ := .trans
  start_await i := by cases i <;> exact ⟨_, _, rfl⟩
  init_inv := observed_empty x a
  start_wp i _ := by
    cases i with
    | main => exact wp_start_main (stands_empty x a)
    | job n => exact wp_start_job (observed_empty x a) ⟨⟨by simp, by simp⟩, rfl, by simp⟩
    | follower k =>
        exact wp_start_follower
          ⟨observed_empty x a, .inl ⟨by simp, fun _ _ => rfl⟩, ⟨by simp, by simp⟩⟩
  known c hc _ := Setup.Reachable.ok hc.any
  allow c i m op k hok hp := hok.resume i m op k rfl hp
  finish i r s _ hpost := ⟨hpost.1, hpost.2.1⟩
  again i r s _ hpost hag := by
    cases i with
    | follower k =>
        cases r with
        | again more =>
            obtain rfl : more = true := hag
            obtain ⟨hobs, hw, hf⟩ := hpost.2.2 k rfl rfl
            exact wp_start_follower ⟨hobs, hw, hf⟩
        | run r => cases hag
        | value v => cases hag
    | main => cases r <;> cases hag
    | job n => cases r <;> cases hag
  others c l c' _ _ hs hl hi := by
    cases l with
    | resume i m => exact absurd trivial (hl i m rfl)
    | move v =>
        obtain ⟨s', hmove, rfl⟩ := System.step_move hs
        exact observed_move hi hmove
  rely_step c l c' hc hok hs hi hg j hj _ := by
    cases l with
    | move v =>
        obtain ⟨s', hmove, rfl⟩ := System.step_move hs
        exact relies_move hmove fun ha => hok.move ha v rfl
    | resume i m =>
        have hne : j ≠ i := fun h => hj m (h ▸ rfl)
        have hadm : x.system.Reach {} (HorizonRelay.Admits anyEnd) c :=
          Setup.Reachable.admitted hc.any
        have hguar : Guar i c.shared.toLedger c'.shared.toLedger :=
          (contract_holds x anyEnd).guarantees hadm (admits_anyEnd c _) trivial hs
        exact (hg i m rfl trivial).relies hguar hi (Setup.Reachable.ok hc.any) hne

end HorizonRelay.Observed

namespace HorizonRelay

/-- **What observers see of a reachable state.** -/
theorem observed_of_reach {x : Setup} {a : Premises} {c : State}
    (h : x.system.Reach {} a.Admits c) : Observed x a none c.shared :=
  (Observed.observing_holds x a).always h

end HorizonRelay
