import HorizonRelay.Observe.Scene

/-!
# The outline of what observers see

A second proof outline for the tasks of a run, about the events, the lock and the
followers.  It builds on the first one: the records of the run are known to be fine, and a
step is known to do to them what the first outline says.

## Main definitions

* `Steady`, `Relies`, `Does` — what a task may expect of the others, and what it does.
* `Awake` — a task that nobody asked to stop.
* `Outlives` — a follower that goes on all the same.
* `observing` — the outline.

## Main results

* `Does.relies` — what one task does, another may rely on.
* `Relies.awake` — a task that is resumed without being cancelled is awake again.
-/

namespace HorizonRelay

open Py Coop

/-! ## Relies -/

/-- Task `i` is told to be where it was. -/
def SameFor (i : Thread) (s : Run) (p p' : Progress) : Prop :=
  match i with
  | .main => p.SameMain p'
  | .job n => s.running n = true → ∀ job, s.jobs[n]? = some job →
      (p.tasks job.task.id).isSome → Progress.SameTask job.task.id p p'
  | .follower _ => True

/-- What stays as it is for task `i`, whether it waits or reports an event of its own. -/
structure Steady (i : Thread) (s s' : Run) : Prop where
  ledger : Rely i s.toLedger s'.toLedger
  keys : ∀ (k : ℕ) (c : Call), s.calls[k]? = some c →
    ∃ c', s'.calls[k]? = some c' ∧ c'.thread = c.thread ∧ c'.key = c.key
  lives : ∀ (k : ℕ) (c : Call), s.calls[k]? = some c → c.thread = i →
    (s'.live k).watched = (s.live k).watched ∧ (s'.live k).stopped = (s.live k).stopped
  outputs : ∀ (k : ℕ) (c : Call), s.calls[k]? = some c → c.thread = i → s.Quiet k →
    c.key ∈ s'.progress.outputs → c.key ∈ s.progress.outputs
  told : s.progress.outputs ⊆ s'.progress.outputs
  gathering : i = .main → s'.gathering = s.gathering
  watched : ∀ k, i = .follower k → (s.live k).watched = true → (s'.live k).watched = true

/-- What task `i` may expect of the others while it waits. -/
structure Relies (a : Premises) (i : Thread) (s s' : Run) : Prop extends Steady i s s' where
  holder : s'.eventLock.holder = some i ↔ s.eventLock.holder = some i
  waiting : i ∈ s'.eventLock.waiters ↔ i ∈ s.eventLock.waiters
  number : s'.number i = s.number i
  held : s.eventLock.holder = some i →
    handed s'.log = handed s.log ∧ inProgress s'.log = inProgress s.log
  cancels : i ∈ s.cancels → i ∈ s'.cancels
  stopped : ∀ k, i = .follower k → (s'.live k).stopped = true →
    (s.live k).stopped = true ∨ i ∈ s'.cancels
  careful : i = .main → a.careful → s.progress.main = .completed → i ∈ s'.cancels →
    i ∈ s.cancels
  story : SameFor i s s.progress s'.progress

variable {x : Setup} {a : Premises} {i : Thread} {s s' s'' : Run}

theorem SameFor.refl (i : Thread) (s : Run) (p : Progress) : SameFor i s p p := by
  cases i with
  | main => exact Progress.SameMain.refl p
  | job n => exact fun _ _ _ _ => Progress.SameTask.refl _ p
  | follower k => trivial

theorem SameFor.trans {p q r : Progress} (h : SameFor i s p q) (h' : SameFor i s q r) :
    SameFor i s p r := by
  cases i with
  | main => exact Progress.SameMain.trans h h'
  | job n =>
      intro hn job hj hid
      have hsame := h hn job hj hid
      exact hsame.trans (h' hn job hj (by rw [hsame.task]; exact hid))
  | follower k => trivial

/-- The task of a job stays what it is. -/
theorem job_of_rely {n : ℕ} {l l' : Ledger} (h : Rely (.job n) l l') (hn : l.running n = true) :
    l'.jobs[n]? = l.jobs[n]? := (h.2 hn).job

theorem Steady.refl (i : Thread) (s : Run) : Steady i s s where
  ledger := .refl _ _
  keys _ c hc := ⟨c, hc, rfl, rfl⟩
  lives _ _ _ _ := ⟨rfl, rfl⟩
  outputs _ _ _ _ _ h := h
  told := List.Subset.refl _
  gathering _ := rfl
  watched _ _ h := h

theorem Steady.quiet (h : Steady i s s') {k : ℕ} {c : Call} (hc : s.calls[k]? = some c)
    (hi : c.thread = i) : s'.Quiet k ↔ s.Quiet k := by
  obtain ⟨hw, hs⟩ := h.lives k c hc hi
  unfold Run.Quiet
  rw [hw, hs]

theorem Steady.trans (h : Steady i s s') (h' : Steady i s' s'') : Steady i s s'' where
  ledger := h.ledger.trans h'.ledger
  keys k c hc := by
    obtain ⟨c', hc', ht, hk⟩ := h.keys k c hc
    obtain ⟨c'', hc'', ht', hk'⟩ := h'.keys k c' hc'
    exact ⟨c'', hc'', ht'.trans ht, hk'.trans hk⟩
  lives k c hc hi := by
    obtain ⟨c', hc', ht, -⟩ := h.keys k c hc
    obtain ⟨hw, hs⟩ := h.lives k c hc hi
    obtain ⟨hw', hs'⟩ := h'.lives k c' hc' (ht.trans hi)
    exact ⟨hw'.trans hw, hs'.trans hs⟩
  outputs k c hc hi hq hk := by
    obtain ⟨c', hc', ht, hkey⟩ := h.keys k c hc
    rw [← hkey] at hk
    have := h'.outputs k c' hc' (ht.trans hi) ((h.quiet hc hi).mpr hq) hk
    rw [hkey] at this
    exact h.outputs k c hc hi hq this
  told := List.Subset.trans h.told h'.told
  gathering hi := (h'.gathering hi).trans (h.gathering hi)
  watched k hi hw := h'.watched k hi (h.watched k hi hw)

theorem Relies.refl (a : Premises) (i : Thread) (s : Run) : Relies a i s s where
  toSteady := .refl i s
  holder := Iff.rfl
  waiting := Iff.rfl
  number := rfl
  held _ := ⟨rfl, rfl⟩
  cancels h := h
  stopped _ _ := .inl
  careful _ _ _ h := h
  story := .refl i s _

theorem Relies.trans (h : Relies a i s s') (h' : Relies a i s' s'') : Relies a i s s'' where
  toSteady := h.toSteady.trans h'.toSteady
  holder := h'.holder.trans h.holder
  waiting := h'.waiting.trans h.waiting
  number := h'.number.trans h.number
  held hi := by
    obtain ⟨hh, hp⟩ := h.held hi
    obtain ⟨hh', hp'⟩ := h'.held (h.holder.mpr hi)
    exact ⟨hh'.trans hh, hp'.trans hp⟩
  cancels hi := h'.cancels (h.cancels hi)
  stopped k hk hi := by
    rcases h'.stopped k hk hi with hi | hi
    · exact (h.stopped k hk hi).imp_right h'.cancels
    · exact .inr hi
  careful hi ha hmain hc := by
    subst hi
    have hmain' : s'.progress.main = .completed := by
      rw [← hmain]
      exact h.story.main
    exact h.careful rfl ha hmain (h'.careful rfl ha hmain' hc)
  story := by
    refine h.story.trans ?_
    have hs := h'.story
    cases i with
    | main => exact hs
    | follower k => trivial
    | job n =>
        intro hn job hj hid
        have hjob := job_of_rely h.ledger hn
        exact hs (by rw [running_of_jobs_eq hjob]; exact hn) job (hjob.trans hj) hid

/-! ## Guarantees -/

/-- What task `i` does. -/
structure Does (a : Premises) (i : Thread) (s s' : Run) : Prop where
  told : ∃ new, handed s'.log = handed s.log ++ new ∧ ∀ e ∈ new, s.Tells i e.data
  accepts : Progress.Accepts (¬ a.heeded) (HorizonRelay.told s.log) →
    Progress.Accepts (¬ a.heeded) (HorizonRelay.told s'.log)
  held : ∀ j, j ≠ i → s.eventLock.holder = some j → s'.eventLock.holder = some j ∧
    handed s'.log = handed s.log ∧ inProgress s'.log = inProgress s.log
  free : ∀ j, j ≠ i → s'.eventLock.holder = some j → s.eventLock.holder = some j
  waiting : ∀ j, j ≠ i → (j ∈ s'.eventLock.waiters ↔ j ∈ s.eventLock.waiters)
  number : ∀ j, j ≠ i → s'.number j = s.number j
  cancels : ∀ j, j ≠ i → j ∈ s.cancels → j ∈ s'.cancels
  spares : i ≠ .main → .main ∈ s'.cancels → .main ∈ s.cancels
  keys : ∀ (k : ℕ) (c : Call), s.calls[k]? = some c →
    ∃ c', s'.calls[k]? = some c' ∧ c'.thread = c.thread ∧ c'.key = c.key
  lives : ∀ (k : ℕ) (c : Call), s.calls[k]? = some c → c.thread ≠ i →
    (s'.live k).watched = (s.live k).watched ∧ (s'.live k).stopped = (s.live k).stopped
  stops : ∀ k, i ≠ .follower k → ((s.live k).watched = true → (s'.live k).watched = true) ∧
    ((s'.live k).stopped = true → (s.live k).stopped = true ∨ .follower k ∈ s'.cancels)
  calls : ∀ k, i = .follower k → s'.calls = s.calls
  tasks : i ≠ .main → s'.jobs.map Job.task = s.jobs.map Job.task
  gathering : i ≠ .main → s'.gathering = s.gathering

theorem Does.refl (a : Premises) (i : Thread) (s : Run) : Does a i s s where
  told := ⟨[], by simp, by simp⟩
  accepts h := h
  held _ _ h := ⟨h, rfl, rfl⟩
  free _ _ h := h
  waiting _ _ := Iff.rfl
  number _ _ := rfl
  cancels _ _ h := h
  spares _ h := h
  keys _ c hc := ⟨c, hc, rfl, rfl⟩
  lives _ _ _ _ := ⟨rfl, rfl⟩
  stops _ _ := ⟨id, .inl⟩
  calls _ _ := rfl
  tasks _ := rfl
  gathering _ := rfl

/-- The progress after the events of a step. -/
theorem progress_append {new : List RelayEvent} (h : handed s'.log = handed s.log ++ new) :
    s'.progress = .of (told s.log ++ new.map RelayEvent.data) := by
  unfold Run.progress told
  rw [h, List.map_append]

/-- The output a step tells is that of a call that is followed, or was told before. -/
theorem Does.outputs (h : Does a i s s') {key : Key} (hk : key ∈ s'.progress.outputs) :
    key ∈ s.progress.outputs ∨ ∃ k c, i = .follower k ∧ s.calls[k]? = some c ∧ c.thread ≠ i ∧
      c.key = key ∧ ¬ s.Quiet k := by
  obtain ⟨new, hnew, htells⟩ := h.told
  rw [progress_append hnew] at hk
  rcases Progress.mem_outputs_append hk with hk | ⟨r, o, n, hm, rfl⟩
  · exact .inl hk
  · obtain ⟨e, he, hd⟩ := List.mem_map.mp hm
    refine (htells e he).outputs (Progress.mem_outputs_after.mpr (.inr ⟨r, o, n, hd, rfl⟩))

theorem Does.kept (h : Does a i s s') : s.progress.outputs ⊆ s'.progress.outputs := by
  intro key hk
  obtain ⟨new, hnew, -⟩ := h.told
  obtain ⟨r, o, n, hm, hr⟩ := Progress.mem_outputs_of.mp hk
  rw [progress_append hnew]
  exact Progress.mem_outputs_of.mpr ⟨r, o, n, List.mem_append_left _ hm, hr⟩

/-- What a task tells later it could have told before. -/
theorem Does.tells (h : Does a i s s') {d : EventData} (hd : s'.Tells i d) : s.Tells i d := by
  cases i with
  | main => exact hd
  | job n =>
      obtain ⟨job, hj, hd⟩ := hd
      have htasks := congrArg (fun ts : List Task => ts[n]?) (h.tasks (by simp))
      simp only [List.getElem?_map, hj, Option.map_some] at htasks
      obtain ⟨job', hj', ht⟩ := Option.map_eq_some_iff.mp htasks.symm
      exact ⟨job', hj', by rw [ht]; exact hd⟩
  | follower k =>
      obtain ⟨c, hc, ht, hd, hq⟩ := hd
      rw [h.calls k rfl] at hc
      obtain ⟨hw, hs⟩ := h.lives k c hc ht
      refine ⟨c, hc, ht, hd, ?_⟩
      rcases hq with hq | hk
      · left
        unfold Run.Quiet at hq ⊢
        rwa [hw, hs] at hq
      · refine (h.outputs hk).symm.imp_left ?_
        rintro ⟨j, d, hj, -, -, -, hq⟩
        cases hj
        exact hq

theorem Does.trans (h : Does a i s s') (h' : Does a i s' s'') : Does a i s s'' where
  told := by
    obtain ⟨new, hnew, htells⟩ := h.told
    obtain ⟨new', hnew', htells'⟩ := h'.told
    refine ⟨new ++ new', by rw [hnew', hnew, List.append_assoc], fun e he => ?_⟩
    rcases List.mem_append.mp he with he | he
    · exact htells e he
    · exact h.tells (htells' e he)
  accepts hs := h'.accepts (h.accepts hs)
  held j hj hs := by
    obtain ⟨hh, hl, hp⟩ := h.held j hj hs
    obtain ⟨hh', hl', hp'⟩ := h'.held j hj hh
    exact ⟨hh', hl'.trans hl, hp'.trans hp⟩
  free j hj hs := h.free j hj (h'.free j hj hs)
  waiting j hj := (h'.waiting j hj).trans (h.waiting j hj)
  number j hj := (h'.number j hj).trans (h.number j hj)
  cancels j hj hs := h'.cancels j hj (h.cancels j hj hs)
  spares hi hs := h.spares hi (h'.spares hi hs)
  keys k c hc := by
    obtain ⟨c', hc', ht, hk⟩ := h.keys k c hc
    obtain ⟨c'', hc'', ht', hk'⟩ := h'.keys k c' hc'
    exact ⟨c'', hc'', ht'.trans ht, hk'.trans hk⟩
  lives k c hc hi := by
    obtain ⟨c', hc', ht, -⟩ := h.keys k c hc
    obtain ⟨hw, hs⟩ := h.lives k c hc hi
    obtain ⟨hw', hs'⟩ := h'.lives k c' hc' (by rw [ht]; exact hi)
    exact ⟨hw'.trans hw, hs'.trans hs⟩
  stops k hk := by
    obtain ⟨hw, hs⟩ := h.stops k hk
    obtain ⟨hw', hs'⟩ := h'.stops k hk
    refine ⟨fun hi => hw' (hw hi), fun hi => ?_⟩
    rcases hs' hi with hi | hi
    · exact (hs hi).imp_right (h'.cancels _ (Ne.symm hk))
    · exact .inr hi
  calls k hk := (h'.calls k hk).trans (h.calls k hk)
  tasks hi := (h'.tasks hi).trans (h.tasks hi)
  gathering hi := (h'.gathering hi).trans (h.gathering hi)

/-- **What one task does, another may rely on.** -/
theorem Does.relies {j : Thread} {permit : Permit} (h : Does a i s s')
    (hg : Guar i s.toLedger s'.toLedger) (hobs : Observed x a none s)
    (hok : s.toLedger.Ok x permit) (hne : j ≠ i) : Relies a j s s' := by
  obtain ⟨new, hnew, htells⟩ := h.told
  have hprog := progress_append hnew
  have haccepts : Progress.Accepts (¬ a.heeded)
      (HorizonRelay.told s.log ++ new.map RelayEvent.data) := by
    have := h.accepts hobs.story.accepts
    unfold HorizonRelay.told at this
    rwa [hnew, List.map_append] at this
  refine
    { ledger := hg.rely hne hok.plan.ids, keys := h.keys
      lives := fun k c hc hi => h.lives k c hc (by rw [hi]; exact hne)
      outputs := fun k c hc hi hq hk => ?_, told := h.kept
      gathering := fun hj => h.gathering fun hi => hne (hj.trans hi.symm)
      holder := ⟨h.free j hne, fun hj => (h.held j hne hj).1⟩
      waiting := h.waiting j hne, number := h.number j hne
      held := fun hj => (h.held j hne hj).2, cancels := h.cancels j hne
      watched := fun k hk => by
        subst hk
        exact (h.stops k hne.symm).1
      stopped := fun k hk => by
        subst hk
        exact (h.stops k hne.symm).2
      careful := fun hj _ _ => by
        subst hj
        exact h.spares hne.symm
      story := ?_ }
  · refine (h.outputs hk).resolve_right ?_
    rintro ⟨m, d, -, hd, -, hkey, hq'⟩
    obtain rfl := hok.eq_of_slot hd hc (congrArg Key.slot hkey)
    exact hq' hq
  · rw [hprog]
    cases j with
    | main =>
        refine Progress.SameMain.append haccepts fun d hd => ?_
        obtain ⟨e, he, rfl⟩ := List.mem_map.mp hd
        have ht := htells e he
        cases i with
        | main => exact absurd rfl hne
        | job m =>
            obtain ⟨job, -, ht⟩ := ht
            simp [ht]
        | follower m =>
            obtain ⟨c', -, -, ht, -⟩ := ht
            simp [ht]
    | job n =>
        intro hn job hj hid
        refine Progress.SameTask.append haccepts hid fun d hd => ?_
        obtain ⟨e, he, rfl⟩ := List.mem_map.mp hd
        have ht := htells e he
        cases i with
        | main => simp [show e.data.teller = .main from ht]
        | job m =>
            obtain ⟨job', hj', ht⟩ := ht
            rw [ht]
            intro heq
            exact hne (congrArg Thread.job
              (eq_of_task_id hok.plan.ids hj hj' (Teller.task.inj heq).symm))
        | follower m =>
            obtain ⟨c', -, -, ht, -⟩ := ht
            simp [ht]
    | follower k => trivial

/-! ## Awake tasks -/

/-- Nobody asked the task to stop. -/
def Awake (i : Thread) (s : Run) : Prop :=
  i ∉ s.cancels ∧ ∀ k, i = .follower k → (s.live k).stopped = false

/-- **A task that is resumed without being cancelled is awake again.** -/
theorem Relies.awake (h : Relies a i s s') (hi : i ∉ s'.cancels) (hs : Awake i s) :
    Awake i s' := by
  refine ⟨hi, fun k hk => ?_⟩
  by_contra hstop
  rcases h.stopped k hk (by simpa using hstop) with hstop | hstop
  · rw [hs.2 k hk] at hstop
    cases hstop
  · exact hi hstop

/-- A follower whose cancellation a callback kept from it can only repeat itself. -/
def Outlives (a : Premises) (k : ℕ) (s : Run) : Prop :=
  ¬ a.heeded ∧ ∃ c, s.calls[k]? = some c ∧ c.key ∈ s.progress.outputs

theorem Outlives.of_steady {k : ℕ} (h : Outlives a k s) (hs : Steady i s s') :
    Outlives a k s' := by
  obtain ⟨ha, c, hc, hk⟩ := h
  obtain ⟨c', hc', -, hkey⟩ := hs.keys k c hc
  exact ⟨ha, c', hc', hkey ▸ hs.told hk⟩

/-- A task away from the lock. -/
def Free (i : Thread) (s : Run) : Prop :=
  s.eventLock.holder ≠ some i ∧ i ∉ s.eventLock.waiters

/-! ## The outline -/

variable (x a) in
/-- The outline of what observers see. -/
def observing : Contract Thread Op Ans Run Exc Result Choice where
  covered _ := True
  rely i := Relies a i
  guar i := Does a i
  inv := Observed x a none
  known s := s.toLedger.Ok x anyEnd
  allow i op s m := a.Allows i op s m
  post i r s := Observed x a none (finish i r s) ∧ Does a i s (finish i r s) ∧
    (∀ k, i = .follower k → r = .ok (.again true) →
      Observed x a none s ∧ (Awake i s ∨ Outlives a k s) ∧ Free i s)

variable (x a) in
/-- The terms task `i` runs under. -/
abbrev eyes (i : Thread) : Terms Op Ans Run Exc := (observing x a).terms x.system i

end HorizonRelay
