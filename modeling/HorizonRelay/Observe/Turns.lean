import HorizonRelay.Observe.Outline

/-!
# Reporting an event

A task numbers its event, waits for the lock if it is not free, hands the event to the
callback and releases the lock when the callback is over.

## Main definitions

* `Free`, `Holding` — a task away from the lock, and one about to hand out its event.
* `Reported`, `Unreported` — what an event leaves, told or not.

## Main results

* `wp_ask` — suspending at a request.
* `wp_event` — the rule of `event`.
-/

namespace HorizonRelay.Observed

open Py Coop

variable {x : Setup} {a : Premises} {i : Thread} {s s' : Run}

/-! ## What lock updates do -/

/-- An update of the lock, the numbers and the cancellations of one task. -/
theorem does_of_same (hlog : s'.log = s.log) (hcalls : s'.calls = s.calls)
    (hlives : s'.lives = s.lives) (hjobs : s'.jobs = s.jobs)
    (hgath : i ≠ .main → s'.gathering = s.gathering)
    (hholder : ∀ j, j ≠ i → (s'.eventLock.holder = some j ↔ s.eventLock.holder = some j))
    (hwaiting : ∀ j, j ≠ i → (j ∈ s'.eventLock.waiters ↔ j ∈ s.eventLock.waiters))
    (hnumber : ∀ j, j ≠ i → s'.number j = s.number j)
    (hcancels : ∀ j, j ≠ i → (j ∈ s.cancels ↔ j ∈ s'.cancels)) : Does a i s s' where
  told := ⟨[], by rw [hlog, List.append_nil], by simp⟩
  accepts h := by rw [hlog]; exact h
  held j hj hs := ⟨(hholder j hj).mpr hs, by rw [hlog], by rw [hlog]⟩
  free j hj hs := (hholder j hj).mp hs
  waiting := hwaiting
  number := hnumber
  cancels j hj := (hcancels j hj).mp
  spares hi := (hcancels _ (Ne.symm hi)).mpr
  keys k c hc := ⟨c, by rw [hcalls, hc], rfl, rfl⟩
  lives k c _ _ := by
    unfold Run.live
    rw [hlives]
    exact ⟨rfl, rfl⟩
  stops k _ := by
    unfold Run.live
    rw [hlives]
    exact ⟨id, .inl⟩
  calls _ _ := hcalls
  tasks _ := by rw [hjobs]
  gathering := hgath

theorem does_nextEvent : Does a i s (s.nextEvent i) :=
  does_of_same rfl rfl rfl rfl (fun _ => rfl) (fun _ _ => Iff.rfl) (fun _ _ => Iff.rfl)
    (fun _ hj => Function.update_of_ne hj _ _) fun _ _ => Iff.rfl

theorem does_enqueue : Does a i s (s.enqueue i) :=
  does_of_same rfl rfl rfl rfl (fun _ => rfl) (fun _ _ => Iff.rfl)
    (fun j hj => by simp [Run.enqueue, hj]) (fun _ _ => rfl) fun _ _ => Iff.rfl

theorem does_hold (h : s.eventLock.holder = none ∨ s.eventLock.holder = some i) :
    Does a i s (s.hold i) :=
  does_of_same rfl rfl rfl rfl (fun _ => rfl)
    (fun j hj => by
      rcases h with h | h <;> simp [Run.hold, h, hj.symm])
    (fun _ _ => Iff.rfl) (fun _ _ => rfl) fun _ _ => Iff.rfl

theorem does_dequeue : Does a i s (s.dequeue i) :=
  does_of_same rfl rfl rfl rfl (fun _ => rfl) (fun _ _ => Iff.rfl)
    (fun _ hj => List.mem_erase_of_ne hj) (fun _ _ => rfl) fun _ _ => Iff.rfl

theorem does_uncancel : Does a i s (s.uncancel i) :=
  does_of_same rfl rfl rfl rfl (fun _ => rfl) (fun _ _ => Iff.rfl)
    (fun _ _ => Iff.rfl) (fun _ _ => rfl) fun _ hj => (List.mem_erase_of_ne hj).symm

theorem does_release (h : s.eventLock.holder = some i) : Does a i s s.release :=
  does_of_same rfl rfl rfl rfl (fun _ => rfl)
    (fun j hj => by simp [Run.release, h, hj.symm]) (fun _ _ => Iff.rfl) (fun _ _ => rfl)
    fun _ _ => Iff.rfl

theorem does_see {entry : Entry} (hheld : s.eventLock.holder = some i)
    (htold : ∃ new, handed (s.see entry).log = handed s.log ++ new ∧
      ∀ e ∈ new, s.Tells i e.data)
    (haccepts : Progress.Accepts (¬ a.heeded) (told s.log) →
      Progress.Accepts (¬ a.heeded) (told (s.see entry).log)) :
    Does a i s (s.see entry) :=
  { Does.refl a i s with
    told := htold
    accepts := haccepts
    held := fun j hj hs => by
      rw [hheld] at hs
      exact absurd (Option.some.inj hs).symm hj }

theorem does_emitted (hheld : s.eventLock.holder = some i) (n : ℕ) :
    Does a i s (s.see (.emitted n)) :=
  does_see hheld ⟨[], by simp [Run.see], by simp⟩ fun h => by
    simpa [told, Run.see] using h

theorem does_handed {e : RelayEvent} (hheld : s.eventLock.holder = some i)
    (htells : s.Tells i e.data) (hadmits : s.progress.Admits (¬ a.heeded) e.data) :
    Does a i s (s.see (.handed e)) :=
  does_see hheld ⟨[e], by simp [Run.see], by simpa using htells⟩ fun h => by
    simp only [told, Run.see, handed_concat_handed, List.map_append, List.map_singleton]
    exact .concat h hadmits

/-! ## Suspending -/

/-- What a task sees to before it makes a request. -/
def Suits (i : Thread) (s : Run) : Op → Prop
  | .emit _ => s.eventLock.holder = some i
  | .gather _ | .join _ => i = .main
  | _ => True

/-- What else changes with the lock and the cancellations does not matter to others. -/
theorem does_of_eq (hlog : s'.log = s.log) (hcalls : s'.calls = s.calls)
    (hlives : s'.lives = s.lives) (hjobs : s'.jobs = s.jobs)
    (hgath : i ≠ .main → s'.gathering = s.gathering) (hlock : s'.eventLock = s.eventLock)
    (hnumber : s'.number = s.number) (hcancels : s'.cancels = s.cancels) : Does a i s s' :=
  does_of_same hlog hcalls hlives hjobs hgath (fun _ _ => by rw [hlock]) (fun _ _ => by rw [hlock])
    (fun _ _ => by rw [hnumber]) fun _ _ => by rw [hcancels]

/-- **An answer is a step of the task that asked.** -/
theorem does_answer {op : Op} {m : Choice} {r : Except Exc (Ans op)} (hs : Suits i s op)
    (h : answer x i op s m = some (r, s')) : Does a i s s' := by
  rcases answer_cases h with ⟨-, -, -, -, rfl⟩ | ⟨-, -, h⟩
  · cases op with
    | lock => exact does_uncancel.trans does_dequeue
    | emit e =>
        have hs' : (s.uncancel i).eventLock.holder = some i := hs
        exact does_uncancel.trans (does_emitted hs' e.seq)
    | gather js | join js =>
        exact does_uncancel.trans (does_of_eq rfl rfl rfl rfl (fun hi => absurd hs hi) rfl rfl rfl)
    | _ => exact does_uncancel
  · cases op with
    | begin =>
        cases (ordinary_eq_some h).2
        exact .refl a i s
    | start n =>
        replace h := (ordinary_eq_some h).2
        split at h
        · obtain ⟨job, -, h⟩ := Option.map_eq_some_iff.mp h
          cases h
          exact .refl a i s
        · cases h
    | locations =>
        obtain ⟨rfl, -⟩ := answerLocations_cases h
        exact does_uncancel
    | lock =>
        replace h := (ordinary_eq_some h).2
        split at h <;> cases h
        rename_i hnext
        simp only [Lock.next, Bool.and_eq_true, Option.isNone_iff_eq_none] at hnext
        exact does_dequeue.trans (does_hold (.inl hnext.1))
    | emit e =>
        have hs' : (s.uncancel i).eventLock.holder = some i := hs
        obtain ⟨rfl, -⟩ := answerEmit_cases h
        exact does_uncancel.trans (does_emitted hs' _)
    | slot =>
        replace h := (ordinary_eq_some h).2
        split at h <;> cases h
        exact does_of_eq rfl rfl rfl rfl (fun _ => rfl) rfl rfl rfl
    | complete k =>
        cases m <;> simp only [answerOp, answerComplete] at h
        case raise => split at h <;> cases h; exact does_uncancel
        all_goals cases h; try exact does_uncancel
    | sleep k =>
        replace h := (ordinary_eq_some h).2
        split at h <;> cases h
        exact .refl a i s
    | gather js =>
        obtain ⟨rfl, -⟩ := answerGather_cases (ordinary_eq_some h).2
        exact does_of_eq rfl rfl rfl rfl (fun hi => absurd hs hi) rfl rfl rfl
    | join js =>
        obtain ⟨rfl, -⟩ := answerJoin_cases (ordinary_eq_some h).2
        exact does_of_eq rfl rfl rfl rfl (fun hi => absurd hs hi) rfl rfl rfl

/-- Suspending at a request: the others may act, then the request is answered. -/
theorem wp_ask {op : Op} {Q : Except Exc (Ans op) → Run → Prop} (hobs : Observed x a none s)
    (hQ : ∀ s₁ m r s', Relies a i s s₁ → Observed x a none s₁ → s₁.toLedger.Ok x anyEnd →
      a.Allows i op s₁ m → answer x i op s₁ m = some (r, s') → Q r s')
    (hsuits : Suits i s op := by trivial) : (ask op).wp (eyes x a i) Q s := by
  unfold ask
  rw [Coro.wp_request]
  refine ⟨hobs,
    fun s₁ hr hk r s' ⟨m, ha, hm⟩ => ⟨does_answer ?_ ha, hQ s₁ m r s' hr hk.1 hk.2 hm ha⟩⟩
  cases op with
  | emit e => exact hr.holder.mpr hsuits
  | gather js | join js => exact hsuits
  | _ => trivial

theorem free_of_relies (h : Relies a i s s') (hf : Free i s) : Free i s' :=
  ⟨fun hh => hf.1 (h.holder.mp hh), fun hw => hf.2 (h.waiting.mp hw)⟩

/-- A task that has taken the lock and is about to hand out its event. -/
structure Holding (i : Thread) (s : Run) : Prop where
  holder : s.eventLock.holder = some i
  out : i ∉ s.eventLock.waiters
  idle : inProgress s.log = []
  bound : s.number i ≤ s.seq
  numbered : s.number i ≠ 0
  last : ∀ e ∈ handed s.log, e.seq < s.number i
  next : ∀ j ∈ s.eventLock.waiters, j ∉ s.cancels → s.number i < s.number j

/-- A task that has numbered its event, and is away from the lock. -/
structure Numbered (i : Thread) (s : Run) : Prop where
  free : Free i s
  number : s.number i = s.seq
  pos : s.seq ≠ 0
  last : ∀ e ∈ handed s.log, e.seq < s.seq
  behind : ∀ j ∈ s.eventLock.waiters, s.number j < s.seq

theorem numbered (h : Observed x a (some i) s) (hf : Free i s) : Numbered i (s.nextEvent i) where
  free := hf
  number := Function.update_self _ _ _
  pos := Nat.succ_ne_zero _
  last e he := Nat.lt_succ_of_le (h.queue.bounded e he)
  behind j hj := by
    have hne : j ≠ i := fun heq => hf.2 (heq ▸ hj)
    rw [show (s.nextEvent i).number j = s.number j from Function.update_of_ne hne _ _]
    exact Nat.lt_succ_of_le (h.queue.numbered j hj)

theorem observed_nextEvent (h : Observed x a (some i) s) (hf : Free i s) :
    Observed x a (some i) (s.nextEvent i) :=
  h.congr rfl (.refl _) rfl (fun _ => rfl) (h.queue.nextEvent hf.2) (fun _ _ hj => hj)
    h.works.cancels fun j hj => by
      by_cases hji : j = i
      · subst hji
        rw [show (s.nextEvent j).number j = _ from Function.update_self _ _ _] at hj
        cases hj
      · rwa [show (s.nextEvent i).number j = _ from Function.update_of_ne hji _ _] at hj

theorem observed_enqueue (h : Observed x a (some i) s) (hn : Numbered i s) :
    Observed x a (some i) (s.enqueue i) :=
  h.congr rfl (.refl _) rfl (fun _ => rfl)
    (h.queue.enqueue hn.free.2 hn.free.1 hn.number hn.behind hn.last) (fun _ _ hj => hj)
    h.works.cancels fun _ hn => hn

theorem observed_hold (h : Observed x a (some i) s) (hi : i ∉ s.eventLock.waiters)
    (hnone : s.eventLock.holder = none) : Observed x a (some i) (s.hold i) :=
  h.congr rfl (.refl _) rfl (fun _ => rfl) (h.queue.hold hi)
    (fun j _ hj => by rw [hnone] at hj; cases hj) h.works.cancels fun _ hn => hn

theorem observed_dequeue (h : Observed x a (some i) s) :
    Observed x a (some i) (s.dequeue i) :=
  h.congr rfl (.refl _) rfl (fun _ => rfl) (h.queue.dequeue i) (fun _ _ hj => hj)
    h.works.cancels fun _ hn => hn

theorem observed_uncancel (h : Observed x a (some i) s) (hi : i ∉ s.eventLock.waiters) :
    Observed x a (some i) (s.uncancel i) :=
  h.congr rfl (.refl _) rfl (fun _ => rfl)
    (h.queue.congr rfl rfl rfl rfl fun j hj hc =>
      (List.mem_erase_of_ne fun heq : j = i => hi (heq ▸ hj)).mpr hc)
    (fun _ _ hj => hj) (h.works.cancels.erase i) fun _ hn => hn

theorem observed_release (h : Observed x a (some i) s) (hheld : s.eventLock.holder = some i)
    (hidle : inProgress s.log = []) : Observed x a (some i) s.release :=
  h.congr rfl (.refl _) rfl (fun _ => rfl) (h.queue.release hidle)
    (fun j hne hj => by
      rw [hheld] at hj
      exact absurd hj hne) h.works.cancels fun _ hn => hn

/-! ## Taking the lock -/

/-- `wp` of `acquire`: the task holds the lock, or was cancelled while it waited. -/
theorem wp_acquire {Q : Except Exc Unit → Run → Prop} (h : Observed x a (some i) s)
    (hn : Numbered i s) (hpark : Parks i s) (hstill : Stills i s)
    (hok : ∀ s', Observed x a (some i) s' → Steady i s s' → SameFor i s s.progress s'.progress →
      (Awake i s → Awake i s') → Holding i s' →
      (s'.toLedger = s.toLedger ∨ s'.toLedger.Ok x anyEnd) → s'.number i = s.number i →
      Q (.ok ()) s')
    (herror : ∀ s', Observed x a (some i) s' → Steady i s s' →
      SameFor i s s.progress s'.progress → Free i s' → a.Allows i .lock s' .cancel →
      Q (.error cancelledError) s') :
    (acquire i).wp (eyes x a i) Q s := by
  unfold acquire
  rw [Coro.wp_bind, Coro.wp_read, Coro.outcome_ok]
  split
  · rename_i hfree
    obtain ⟨hnone, hempty⟩ := hfree
    rw [Coro.wp_update]
    refine ⟨does_hold (.inl hnone), hok _ (observed_hold h hn.free.2 hnone) ?_ (.refl _ _ _) ?_ ?_
      (.inl rfl) rfl⟩
    · exact { Steady.refl i s with }
    · cases i <;> exact id
    · exact
        { holder := rfl, out := hn.free.2, idle := h.queue.idle hnone, bound := hn.number.le
          numbered := fun h0 => hn.pos (hn.number.symm.trans h0)
          last := fun e he => lt_of_lt_of_eq (hn.last e he) hn.number.symm
          next := fun j hj => by
            rw [show (s.hold i).eventLock.waiters = s.eventLock.waiters from rfl, hempty] at hj
            cases hj }
  · rw [Coro.wp_bind, Coro.wp_update]
    refine ⟨does_enqueue, ?_⟩
    have henq := observed_enqueue h hn
    refine wp_ask (henq.park ?_ ?_) fun s₁ m r s' hr hs₁ hok₁ hm ha => ?_
    · cases i <;> exact hpark
    · exact hstill
    have hwait : i ∈ s₁.eventLock.waiters := hr.waiting.mpr (by simp [Run.enqueue])
    have hnodup : i ∉ (s₁.dequeue i).eventLock.waiters :=
      fun hmem => (hs₁.queue.nodup.mem_erase_iff.mp hmem).1 rfl
    have hsteady : Steady i s s₁ := { hr.toSteady with }
    have hstory : SameFor i s s.progress s₁.progress := hr.story
    have hdeq := observed_dequeue (hs₁.wake i)
    rcases answer_cases ha with ⟨rfl, hc, -, rfl, rfl⟩ | ⟨-, hc, ha⟩
    · have hheld : s₁.eventLock.holder ≠ some i := fun hh => hn.free.1 (hr.holder.mp hh)
      exact herror _ (observed_uncancel hdeq hnodup) { hsteady with } hstory ⟨hheld, hnodup⟩
        ⟨hm.unhurt, hm.calm, fun _ _ he => by cases he⟩
    · have hc : i ∉ s₁.cancels := fun h => by simpa [Op.isForeign] using hc h
      replace ha := (ordinary_eq_some ha).2
      split at ha <;> cases ha
      rename_i hnext
      have hnone : s₁.eventLock.holder = none := by
        simp only [Lock.next, Bool.and_eq_true, Option.isNone_iff_eq_none] at hnext
        exact hnext.1
      refine hok _ (observed_hold hdeq hnodup hnone) { hsteady with } hstory ?_ ?_ (.inr hok₁)
        hr.number
      · intro hawake
        have hs : Awake i (s.enqueue i) := by cases i <;> exact hawake
        have := hr.awake hc hs
        cases i <;> exact this
      · exact
          { holder := rfl, out := hnodup, idle := hs₁.queue.idle hnone
            bound := hs₁.queue.numbered i hwait
            numbered := fun h0 => hn.pos (hn.number.symm.trans (hr.number.symm.trans h0))
            last := hs₁.queue.waiting i hwait hc
            next := fun j hj hjc => by
              obtain ⟨hne, hj⟩ := hs₁.queue.nodup.mem_erase_iff.mp hj
              exact hs₁.queue.next hwait hnext hj hne hjc }

/-! ## Events -/

/-- An event was told, and the task is away from the lock again. -/
structure Reported (x : Setup) (a : Premises) (i : Thread) (d : EventData) (s s' : Run) : Prop where
  observed : Observed x a (some i) s'
  steady : Steady i s s'
  free : Free i s'
  story : x.emit = true → SameFor i s (s.progress.after d) s'.progress
  output : x.emit = true → ∀ r o n, d = .callOutput r o n → r.key ∈ s'.progress.outputs

/-- The task was cancelled before its event was told. -/
structure Unreported (x : Setup) (a : Premises) (i : Thread) (s s' : Run) : Prop where
  observed : Observed x a (some i) s'
  steady : Steady i s s'
  free : Free i s'
  story : SameFor i s s.progress s'.progress
  allows : a.Allows i .lock s' .cancel

theorem observed_emitted (h : Observed x a (some i) s) {n : ℕ} (hbusy : inProgress s.log = [n]) :
    Observed x a (some i) (s.see (.emitted n)) :=
  h.congr rfl (.concat _ ⟨rfl, rfl⟩) rfl (fun _ => rfl) (h.queue.emitted hbusy) (fun _ _ hj => hj)
    h.works.cancels fun _ hn => hn

/-- A task that is no follower, or one whose cancellation no callback keeps from it. -/
def Minds (a : Premises) (i : Thread) : Prop := a.heeded ∨ ∀ k, i ≠ .follower k

theorem uncancel_of_notMem (h : i ∉ s.cancels) : s.uncancel i = s := by
  unfold Run.uncancel
  rw [List.erase_of_not_mem h]

/-- A task is awake once its cancellation was caught. -/
theorem awake_uncancel (h : s.cancels.Nodup)
    (hi : ∀ k, i = .follower k → (s.live k).stopped = false) : Awake i (s.uncancel i) :=
  ⟨fun hmem => (h.mem_erase_iff.mp hmem).1 rfl, hi⟩

/-- What the others leave to a task inside the callback, from before its event on. -/
theorem steady_handed {e : RelayEvent} {s₁ : Run} (hr : Relies a i (s.see (.handed e)) s₁)
    (hledger : ∀ k, i = .follower k → s.toLedger.Ok x anyEnd) (ht : s.Tells i e.data) :
    Steady i s s₁ :=
  { hr.toSteady with
    outputs := fun k c hc hi hq hk => by
      have hk := hr.outputs k c hc hi hq hk
      rw [progress_see_handed] at hk
      refine (ht.outputs hk).resolve_right ?_
      rintro ⟨j, d, hj, hd, hne, hkey, -⟩
      obtain rfl := (hledger j hj).eq_of_slot hd hc (congrArg Key.slot hkey)
      rw [Option.some.inj (hc.symm.trans hd)] at hi
      exact hne hi
    told := fun key hk => hr.told (by
      rw [progress_see_handed]
      exact Progress.mem_outputs_after.mpr (.inl hk)) }

/-- Whatever the callback did, the task releases the lock, and its event is told. -/
theorem reported_release {d : EventData} {n : ℕ} {s₁ : Run} (h : Observed x a (some i) s₁)
    (hholder : s₁.eventLock.holder = some i) (hout : i ∉ s₁.eventLock.waiters)
    (hbusy : inProgress s₁.log = [n]) (hsteady : Steady i s s₁)
    (hstory : SameFor i s (s.progress.after d) s₁.progress)
    (houtput : ∀ r o n, d = .callOutput r o n → r.key ∈ s₁.progress.outputs) :
    Does a i ((s₁.uncancel i).see (.emitted n)) ((s₁.uncancel i).see (.emitted n)).release ∧
      Reported x a i d s ((s₁.uncancel i).see (.emitted n)).release := by
  have hobs := observed_emitted (observed_uncancel h hout) hbusy
  have hnone : inProgress ((s₁.uncancel i).see (.emitted n)).log = [] := by
    simp [Run.see, Run.uncancel, hbusy, Entry.turn]
  have hprog : ((s₁.uncancel i).see (.emitted n)).release.progress = s₁.progress :=
    progress_congr (handed_concat_emitted _ _)
  refine ⟨does_release hholder, observed_release hobs hholder hnone, ?_, ⟨fun h => ?_, hout⟩,
    fun _ => ?_, fun _ r o m hd => ?_⟩
  · exact
      { hsteady with
        outputs := by rw [hprog]; exact hsteady.outputs
        told := by rw [hprog]; exact hsteady.told }
  · cases h
  · rw [hprog]
    exact hstory
  · rw [hprog]
    exact houtput r o m hd

/-- The callback is called, and whatever it does, the lock is released. -/
theorem wp_hand {d : EventData} {done : Bool} {Q : Except Exc Unit → Run → Prop}
    (h : Observed x a (some i) s) (hemit : x.emit = true) (hheld : Holding i s)
    (hledger : ∀ k, i = .follower k → s.toLedger.Ok x anyEnd) (ht : Fit x a i d s)
    (hflag : done = d.metrics?.isSome)
    (hpark : Parks i s)
    (hok : ∀ s', Reported x a i d s s' → (Minds a i → Awake i s → Awake i s') → Q (.ok ()) s')
    (herror : ∀ s', Reported x a i d s s' →
      (∀ m, d = .runCompleted m → i = .main → a.careful → .main ∈ s.cancels) →
      Q (.error cancelledError) s') :
    ((swallow (deliver ⟨s.number i, d, done, x.provider.simulated⟩)).tryFinally
      (Coro.update Run.release)).wp (eyes x a i) Q s := by
  unfold swallow deliver
  rw [Coro.wp_tryFinally, Coro.wp_tryExcept, Coro.wp_bind, Coro.wp_update]
  set e : RelayEvent := ⟨s.number i, d, done, x.provider.simulated⟩ with he
  refine ⟨does_handed hheld.holder ht.tells ht.admits, ?_⟩
  have hqueue := h.queue.hand (e := e) hheld.holder hheld.idle hheld.bound hheld.last hheld.next
  have hobs := h.hand hqueue hheld.holder hemit hheld.numbered hledger ht hflag
  have hpark' : Parks i (s.see (.handed e)) := by cases i <;> exact hpark
  refine wp_ask (hobs.park hpark' fun _ _ _ _ _ _ => .inr hheld.holder)
    (fun s₁ m r s' hr hs₁ _ hallows ha => ?_) hheld.holder
  obtain ⟨hhanded, hprogress⟩ := hr.held hheld.holder
  have hbusy : inProgress s₁.log = [e.seq] := by
    rw [hprogress, Run.see, inProgress_concat, hheld.idle]
    rfl
  have hholder : s₁.eventLock.holder = some i := hr.holder.mpr hheld.holder
  have hout : i ∉ s₁.eventLock.waiters := fun hw => hheld.out (hr.waiting.mp hw)
  have hstory : SameFor i s (s.progress.after d) s₁.progress := by
    have := hr.story
    rw [progress_see_handed] at this
    cases i <;> exact this
  have hrelease := reported_release (d := d) (hs₁.wake i) hholder hout hbusy
    (steady_handed hr hledger ht.tells) hstory fun r o n hd => hr.told (by
      rw [progress_see_handed]
      exact Progress.mem_outputs_after.mpr (.inr ⟨r, o, n, hd, rfl⟩))
  rcases answer_cases ha with ⟨rfl, hc, -, rfl, rfl⟩ | ⟨hm, hc, ha⟩
  · -- the cancellation ends the callback
    rw [Coro.outcome_error]
    change (if cancelledError.isException = true then _ else _ : Prog Unit).wp _ _ _
    rw [if_neg (by decide), Coro.wp_raise, Coro.wp_update]
    refine ⟨hrelease.1, herror _ hrelease.2 fun m hd hi ha' => ?_⟩
    subst hi
    refine hr.careful rfl ha' ?_ hc
    rw [progress_see_handed, show e.data = _ from hd]
    rfl
  · -- the callback may have caught a cancellation
    have hawake : Minds a i → Awake i s →
        Awake i ((s₁.uncancel i).see (.emitted e.seq)).release := by
      intro hminds hawake
      have hs : Awake i (s.see (.handed e)) := by cases i <;> exact hawake
      refine awake_uncancel hs₁.works.cancels fun k hk => ?_
      have hi : i ∉ s₁.cancels := fun hi => hm (hallows.heeded
        (hminds.resolve_right fun h => h k hk) e rfl k hk hi)
      exact (hr.awake hi hs).2 k hk
    obtain ⟨rfl, hexc⟩ := answerEmit_cases ha
    cases r with
    | ok u =>
        rw [Coro.outcome_ok, Coro.wp_update]
        exact ⟨hrelease.1, hok _ hrelease.2 hawake⟩
    | error err =>
        rw [Coro.outcome_error]
        change (if err.isException = true then _ else _ : Prog Unit).wp _ _ _
        rw [if_pos (hexc err rfl), Coro.wp_pure, Coro.wp_update]
        exact ⟨hrelease.1, hok _ hrelease.2 hawake⟩

/-- The others' events before an event of task `i`, and after it. -/
theorem sameFor_congr {p q : Progress} (h : SameFor i s p q)
    (hsome : ∀ n job, i = .job n → s.jobs[n]? = some job → (p.tasks job.task.id).isSome)
    (d : EventData) : SameFor i s (p.after d) (q.after d) := by
  cases i with
  | main => exact Progress.SameMain.congr h d
  | job n => exact fun hn job hj _ => (h hn job hj (hsome n job rfl hj)).congr d
  | follower k => trivial

theorem sameFor_of_steady {p q : Progress} (hs : Steady i s s') (h : SameFor i s' p q) :
    SameFor i s p q := by
  cases i with
  | main => exact h
  | job n =>
      intro hn job hj hid
      have hjob := job_of_rely hs.ledger hn
      exact h (by rw [running_of_jobs_eq hjob]; exact hn) job (hjob.trans hj) hid
  | follower k => trivial

/-- **The rule of `event`.** The event is told when it is fit to be told by then, and whatever
the callback does; or the task was cancelled first. -/
theorem wp_event {d : EventData} {done : Bool} {Q : Except Exc Unit → Run → Prop}
    (h : Observed x a (some i) s) (hfree : Free i s) (hstill : Stills i s)
    (hflag : done = d.metrics?.isSome) (hledger : ∀ k, i = .follower k → s.toLedger.Ok x anyEnd)
    (hsome : x.emit = true → ∀ n job, i = .job n → s.jobs[n]? = some job →
      (s.progress.tasks job.task.id).isSome)
    (hpark : ∀ s', Steady i s s' → (Awake i s → Awake i s') → Parks i s')
    (ht : ∀ s', Observed x a (some i) s' → Steady i s s' → SameFor i s s.progress s'.progress →
      (Awake i s → Awake i s') → s'.eventLock.holder = some i → x.emit = true →
      (∀ k, i = .follower k → s'.toLedger.Ok x anyEnd) → Fit x a i d s')
    (hok : ∀ s', Reported x a i d s s' → (Minds a i → Awake i s → Awake i s') → Q (.ok ()) s')
    (herror : ∀ s', x.emit = true → Unreported x a i s s' ∨ (Reported x a i d s s' ∧
      ∀ m, d = .runCompleted m → i = .main → a.careful → ¬ Awake i s) →
      Q (.error cancelledError) s') :
    (event x i d done).wp (eyes x a i) Q s := by
  unfold event
  rw [Coro.wp_bind, Coro.wp_update, Coro.outcome_ok]
  refine ⟨does_nextEvent, ?_⟩
  have hobs := observed_nextEvent h hfree
  have hsteady : Steady i s (s.nextEvent i) := { Steady.refl i s with }
  have hawake : Awake i s → Awake i (s.nextEvent i) := by cases i <;> exact id
  split
  · rename_i hemit
    rw [Coro.wp_bind, Coro.wp_read, Coro.outcome_ok, Coro.wp_bind]
    refine wp_acquire hobs (numbered h hfree) (hpark _ hsteady hawake) hstill ?_ ?_
    · intro s' hobs' hsteady' hstory hawake' hheld hl hnumber
      rw [Coro.outcome_ok]
      have hsteady'' := hsteady.trans hsteady'
      have hawake'' : Awake i s → Awake i s' := fun hw => hawake' (hawake hw)
      have hstory' : SameFor i s s.progress s'.progress := by cases i <;> exact hstory
      have hnumber : (s.nextEvent i).seq = s'.number i :=
        ((Function.update_self _ _ _).symm.trans hnumber.symm : _ = _)
      have hledger' : ∀ k, i = .follower k → s'.toLedger.Ok x anyEnd := by
        intro k hk
        rcases hl with hl | hl
        · rw [hl]
          exact hledger k hk
        · exact hl
      have hafter : SameFor i s (s.progress.after d) (s'.progress.after d) :=
        sameFor_congr hstory' (hsome hemit) d
      have hreport : ∀ s'', Reported x a i d s' s'' → Reported x a i d s s'' := fun s'' hr =>
        ⟨hr.observed, hsteady''.trans hr.steady, hr.free, fun he =>
          hafter.trans (sameFor_of_steady hsteady'' (hr.story he)), hr.output⟩
      rw [hnumber]
      refine wp_hand hobs' hemit hheld hledger'
        (ht s' hobs' hsteady'' hstory' hawake'' hheld.holder hemit hledger') hflag
        (hpark s' hsteady'' hawake'')
        (fun s'' hr hw => hok s'' (hreport s'' hr) fun hm hwake => hw hm (hawake'' hwake))
        fun s'' hr hw => herror s'' hemit (.inr ⟨hreport s'' hr, fun m hd hi ha hwake => ?_⟩)
      subst hi
      exact (hawake'' hwake).1 (hw m hd rfl ha)
    · intro s' hobs' hsteady' hstory hfree' hallows
      rw [Coro.outcome_error]
      refine herror s' hemit (.inl ⟨hobs', hsteady.trans hsteady', hfree', ?_, hallows⟩)
      cases i <;> exact hstory
  · rename_i hemit
    exact hok _ ⟨hobs, hsteady, hfree, fun he => absurd he hemit, fun he => absurd he hemit⟩
      fun _ => hawake

end HorizonRelay.Observed
