import HorizonRelay.Observe.Numbers

/-!
# The handlers keep the graph right

One lemma for each kind of event the protocol knows: after an expected event, the graph shows
nothing without a reason, and what it showed before still has its reason or was settled.

## Main results

* `Graph.right_of_accepts` — the graph of every accepted sequence of events is right.
-/

namespace HorizonRelay

open Py

namespace Graph

variable {g g' : Graph} {late : Prop} {p p' : Progress} {k id : Str} {fresh node : Node}
  {f : Node → Node} {n : Option ℕ} {d : EventData}

/-- `add(event)`, for what the event tells. -/
def tell (g : Graph) (d : EventData) : Graph := g.add ⟨0, d, false, false⟩

/-! ## Ids -/

theorem judgeId_ne_triageId (t : Tier) : triageId ≠ judgeId t := by cases t <;> decide

theorem judgeId_ne_planId (t : Tier) : planId ≠ judgeId t := by cases t <;> decide

theorem judgeId_ne_answerId (t : Tier) : answerId ≠ judgeId t := by cases t <;> decide

/-! ## Nodes after an event -/

/-- A node keeps its attempts and its text. -/
theorem Moves.plain (hm : g.Moves p p' k none)
    (hr : node.Held (g.TryingAt late p k) (g.WritingAt late p k)) {node' : Node}
    (hat : node'.attempts = node.attempts) (hlive : node'.live = node.live)
    (hstatus : node'.status.settled = true ∨ g.BusyAt late p' k) : g.RightAt late p' k node' where
  live h := (hm.held hr).live (hlive ▸ h)
  numbers := hat ▸ (hm.held hr).numbers
  attempts := hat ▸ (hm.held hr).attempts
  status h := hstatus.resolve_left (by simp [h])

/-- A node keeps its text, and one of its attempts changes. -/
theorem Moves.attempt {m : ℕ} {fa : Attempt → Attempt} (hm : g.Moves p p' k (some m))
    (hwrites : ∀ m, g.WritingAt late p k m → g.WritingAt late p' k m)
    (hr : node.Held (g.TryingAt late p k) (g.WritingAt late p k)) {node' : Node}
    (hat : node'.attempts = (node.onAttempt m fa).attempts) (hn : ∀ a, (fa a).n = a.n)
    (hlive : node'.live = node.live) (hlives : ∀ a, (fa a).live = a.live)
    (hthis : g.TryingAt late p' k m ∨ ∀ a, (fa a).outcome ≠ .running)
    (hstatus : node'.status.settled = true ∨ g.BusyAt late p' k) : g.RightAt late p' k node' where
  toHeld := by
    refine hm.heldAttempt hr hat hn (fun h => ?_) fun a ha => ⟨fun hrun => ?_, fun h => ?_⟩
    · exact (hr.live (hlive ▸ h)).imp hwrites
    · exact .inl (hthis.resolve_right fun hne => hne a hrun)
    · exact hwrites m (ha (hlives a ▸ h))
  status h := hstatus.resolve_left (by simp [h])

theorem ne_callFinished (h : d.record? = none) (r : CallRecord) : d ≠ .callFinished r := by
  rintro rfl
  cases h

/-- No call ended. -/
theorem writingAt_after (hd : d.record? = none) (m : ℕ) (h : g.WritingAt late p k m) :
    g.WritingAt late (p.after d) k m := by
  refine h.imp_right fun ⟨s, hs, hw⟩ => ?_
  exact ⟨s, hs, (writing_after hw).resolve_right fun ⟨r, hr, _⟩ => ne_callFinished hd r hr⟩

/-- The main flow is busy with the step of the node. -/
theorem BusyAt.of_main {s : Step} (h : p.main.busy = some s) : g.BusyAt late p (g.nodeOf s) :=
  .inr ⟨s, rfl, .inl h⟩

theorem TryingAt.of_main {s : Step} {m : ℕ} (h : p.main.trying = some (s, m)) :
    g.TryingAt late p (g.nodeOf s) m := .inr ⟨s, rfl, .inl h⟩

/-! ## The main flow's own events -/

/-- An event of the main flow that reports no call and makes no plan. -/
structure Plain (d : EventData) : Prop where
  teller : d.teller = .main
  record : d.record? = none
  plan : ∀ tasks s, d ≠ .planCreated tasks s

theorem Plain.moves (hd : Plain d) (he : p.Expects d)
    (hbusy : ∀ s, p.main.busy = some s → (p.after d).main.busy = some s ∨ g.nodeOf s = k)
    (htrying : ∀ s m, p.main.trying = some (s, m) →
      (p.after d).main.trying = some (s, m) ∨ g.nodeOf s = k ∧ n = some m) :
    g.Moves p (p.after d) k n :=
  .of_main hd.teller hd.plan he.1 hbusy htrying fun r hr => absurd hr (ne_callFinished hd.record r)

/-- What is to be shown of a handler of such an event. -/
theorem Right.of_plain (h : g.Right late p) (hd : Plain d) (ht : Touched g (g.tell d) k fresh f)
    (hblank : fresh.Blank) (hm : g.Moves p (p.after d) k n) (hend : (p.after d).main ≠ .stopped)
    (hhere : ∀ node, node.Held (g.TryingAt late p k) (g.WritingAt late p k) →
      (g.nodes.get? k = some node ∨ node = fresh ∧ g.nodes.get? k = none) →
        g.RightAt late (p.after d) k (f node))
    (hjudging : (g.tell d).Judging (p.after d)) : (g.tell d).Right late (p.after d) where
  nodes := ht.rightAt hblank hm h.nodes hhere
  judging := hjudging
  unplanned hp key hkey := by
    refine h.unplanned (by rw [← Progress.plan_after hd.plan, hp]) key ?_
    refine (Progress.mem_outputs_after.mp hkey).resolve_right ?_
    rintro ⟨r, o, w, rfl, -⟩
    cases hd.record
  stopped _ hstop := absurd hstop hend

section Main
variable {t : Tier} {m : ℕ}

theorem right_localAttempt {model : Option Str} (h : g.Right late p)
    (he : p.Expects (.localAttempt t model)) :
    (g.tell (.localAttempt t model)).Right late (p.after (.localAttempt t model)) := by
  have hmain : p.main = .opened := he.allows
  have hd : Plain (.localAttempt t model) := ⟨rfl, rfl, nofun⟩
  have ht : Touched g (g.tell (.localAttempt t model)) triageId triageNode (Node.onAttempt 1 id) :=
    touched_onNode rfl
  have hm : g.Moves p (p.after (.localAttempt t model)) triageId (some 1) :=
    hd.moves he (by simp [hmain, MainPhase.busy]) (by simp [hmain, MainPhase.trying])
  refine h.of_plain hd ht ⟨rfl, rfl⟩ hm nofun (fun node hr _ => ?_) ?_
  · exact hm.attempt (writingAt_after rfl) hr rfl (fun _ => rfl) rfl (fun _ => rfl)
      (.inl (TryingAt.of_main (s := .triage) rfl)) (.inr (BusyAt.of_main (s := .triage) rfl))
  · exact h.judging.touched ht (fun _ => rfl) (.inr rfl) id rfl
      (fun _ t hk => absurd hk (judgeId_ne_triageId t))
      fun _ => h.judging.unseen (.inr (.inl hmain))

theorem right_extractFailed (h : g.Right late p) (he : p.Expects (.extractFailed t)) :
    (g.tell (.extractFailed t)).Right late (p.after (.extractFailed t)) := by
  have hmain : p.main = .extracted := he.allows
  have hd : Plain (.extractFailed t) := ⟨rfl, rfl, nofun⟩
  have ht : Touched g (g.tell (.extractFailed t)) triageId triageNode
      (fun node => { node with status := .escalated }) := touched_onExisting rfl _
  have hm : g.Moves p (p.after (.extractFailed t)) triageId none := by
    refine hd.moves he (fun s hs => .inr ?_) (by simp [hmain, MainPhase.trying])
    rw [hmain] at hs
    cases hs
    rfl
  refine h.of_plain hd ht ⟨rfl, rfl⟩ hm nofun (fun node hr _ => ?_) ?_
  · exact hm.plain hr rfl rfl (.inl rfl)
  · exact h.judging.touched ht (fun _ => rfl) (.inr rfl) id rfl
      (fun _ t hk => absurd hk (judgeId_ne_triageId t))
      fun hu => by rcases hu with hu | hu | hu | hu <;> cases hu

/-- Between local models there is no plan, and nothing the main flow is busy with. -/
theorem between_spec (hp : p.Planned) (h : p.Between) :
    p.plan = none ∧ p.main.busy = none ∧ p.main.trying = none := by
  refine ⟨?_, ?_⟩
  · by_contra hne
    have hmain := hp.main (Option.isSome_iff_ne_none.mpr hne)
    rcases h with h | h <;> simp [h] at hmain
  · rcases h with h | h <;> simp [h, MainPhase.busy, MainPhase.trying]

/-- A model that was not seen has no node. -/
theorem Judging.get?_eq_none (h : g.Judging p) (hplan : p.plan = none) (ht : t ∉ p.seen) :
    g.nodes.get? (judgeId t) = none := by
  cases hnode : g.nodes.get? (judgeId t) with
  | none => rfl
  | some node => exact absurd (h.judged hplan t node hnode) ht

/-- A model gets its node. -/
theorem Judging.made (h : g.Judging p) (hplan : p.plan = none)
    (ht : Touched g g' (judgeId t) fresh f) (hseen : p'.seen = p.seen ++ [t])
    (hunseen : p'.main ≠ .begun ∧ p'.main ≠ .opened ∧ p'.main ≠ .extracting ∧
      p'.main ≠ .extracted)
    (hjudges : ∀ t n, p'.main.judging? = some (t, n) →
      ∃ node, g'.nodes.get? (judgeId t) = some node ∧ node.samples.length = n) :
    g'.Judging p' where
  judges := hjudges
  judged _ t' node hnode := by
    rw [hseen, List.mem_append, List.mem_singleton]
    by_cases hid : judgeId t' = judgeId t
    · right
      have hname : t'.name = t.name := List.append_cancel_left hid
      revert hname
      cases t' <;> cases t <;> decide
    · rw [ht.other _ hid] at hnode
      exact .inl (h.judged hplan t' node hnode)
  unseen hu := by
    obtain ⟨h₁, h₂, h₃, h₄⟩ := hunseen
    rcases hu with hu | hu | hu | hu
    · exact absurd hu h₁
    · exact absurd hu h₂
    · exact absurd hu h₃
    · exact absurd hu h₄

theorem right_localSkipped {c : ℚ} {th : Option ℚ} (h : g.Right late p) (hp : p.Planned)
    (he : p.Expects (.localSkipped t c th)) :
    (g.tell (.localSkipped t c th)).Right late (p.after (.localSkipped t c th)) := by
  obtain ⟨hbetween, hseen⟩ : p.Between ∧ t ∉ p.seen := he.allows
  obtain ⟨hplan, hbusy, htrying⟩ := between_spec hp hbetween
  have hd : Plain (.localSkipped t c th) := ⟨rfl, rfl, nofun⟩
  have hnone := h.judging.get?_eq_none hplan hseen
  have ht : Touched g (g.tell (.localSkipped t c th)) (judgeId t) (judgeNode t .skipped) id :=
    touched_onNode rfl
  have hm : g.Moves p (p.after (.localSkipped t c th)) (judgeId t) none :=
    hd.moves he (by simp [hbusy]) (by simp [htrying])
  refine h.of_plain hd ht ⟨rfl, rfl⟩ hm nofun (fun node hr hold => ?_) ?_
  · obtain ⟨rfl, -⟩ := hold.resolve_left (by simp [hnone])
    exact hm.plain hr rfl rfl (.inl rfl)
  · exact h.judging.made hplan ht rfl (by simp [Progress.after, MainPhase.after])
      (by rintro t n ⟨⟩)

theorem right_localSolve {model : Str} (h : g.Right late p) (hp : p.Planned)
    (he : p.Expects (.localSolve t model)) :
    (g.tell (.localSolve t model)).Right late (p.after (.localSolve t model)) := by
  obtain ⟨hbetween, hseen⟩ : p.Between ∧ t ∉ p.seen := he.allows
  obtain ⟨hplan, hbusy, htrying⟩ := between_spec hp hbetween
  have hd : Plain (.localSolve t model) := ⟨rfl, rfl, nofun⟩
  have hnone := h.judging.get?_eq_none hplan hseen
  have ht : Touched g (g.tell (.localSolve t model)) (judgeId t) (judgeNode t .running) id :=
    touched_onNode rfl
  have hm : g.Moves p (p.after (.localSolve t model)) (judgeId t) none :=
    hd.moves he (by simp [hbusy]) (by simp [htrying])
  refine h.of_plain hd ht ⟨rfl, rfl⟩ hm nofun (fun node hr _ => ?_) ?_
  · exact hm.plain hr rfl rfl (.inr (BusyAt.of_main (s := .judge t) rfl))
  · refine h.judging.made hplan ht rfl (by simp [Progress.after, MainPhase.after]) fun t' n hj => ?_
    obtain ⟨rfl, rfl⟩ : t = t' ∧ 0 = n := by
      simpa [Progress.after, MainPhase.after, MainPhase.judging?] using hj
    refine ⟨judgeNode t .running, ?_, rfl⟩
    change (g.onNode (judgeId t) (judgeNode t .running) id).nodes.get? (judgeId t) = _
    rw [get?_onNode, if_pos rfl, hnone]
    rfl

/-- The node of the model that is judged. -/
theorem Judging.here (h : g.Judging p) {n : ℕ} (hj : p.main.judging? = some (t, n))
    (hold : g.nodes.get? (judgeId t) = some node ∨ node = fresh ∧ g.nodes.get? (judgeId t) = none) :
    node.samples.length = n := by
  obtain ⟨node', hnode, hn⟩ := h.judges t n hj
  rcases hold with hold | ⟨-, hold⟩
  · rw [hnode] at hold
    cases hold
    exact hn
  · rw [hnode] at hold
    cases hold

theorem Judging.ne_none (h : g.Judging p) {n : ℕ} (hj : p.main.judging? = some (t, n)) :
    g.nodes.get? (judgeId t) ≠ none := by
  obtain ⟨node, hnode, -⟩ := h.judges t n hj
  rw [hnode]
  nofun

theorem judgeId_inj {t t' : Tier} (h : judgeId t = judgeId t') : t = t' := by
  have hname : t.name = t'.name := List.append_cancel_left h
  revert hname
  cases t <;> cases t' <;> decide

theorem right_localSample {a : Assessment} (h : g.Right late p)
    (he : p.Expects (.localSample t m a)) :
    (g.tell (.localSample t m a)).Right late (p.after (.localSample t m a)) := by
  obtain ⟨j, rfl, hmain⟩ : ∃ j, m = j + 1 ∧ p.main = .sampled t j := he.allows
  have hd : Plain (.localSample t (j + 1) a) := ⟨rfl, rfl, nofun⟩
  have hj : p.main.judging? = some (t, j) := by rw [hmain]; rfl
  have ht : Touched g (g.tell (.localSample t (j + 1) a)) (judgeId t) (judgeNode t .running)
      (fun node => { node.onAttempt (j + 1) fun at' =>
        { at' with outcome := if a.needsEscalation then .failed else .passed } with
          samples := node.samples ++ [a] }) := touched_onExisting rfl _
  have hm : g.Moves p (p.after (.localSample t (j + 1) a)) (judgeId t) (some (j + 1)) := by
    refine hd.moves he (fun s hs => .inl ?_) (fun s m hs => .inr ?_)
    · rw [hmain] at hs
      exact hs
    · rw [hmain] at hs
      cases hs
      exact ⟨rfl, rfl⟩
  refine h.of_plain hd ht ⟨rfl, rfl⟩ hm nofun (fun node hr _ => ?_) ?_
  · exact hm.attempt (writingAt_after rfl) hr rfl (fun _ => rfl) rfl (fun _ => rfl)
      (.inr fun b => by split <;> simp) (.inr (BusyAt.of_main (s := .judge t) rfl))
  · refine ⟨fun t' n hj' => ?_, fun hplan t' node hnode => ?_, fun hu => ?_⟩
    · obtain ⟨rfl, rfl⟩ : t = t' ∧ j + 1 = n := by
        simpa [Progress.after, MainPhase.after, MainPhase.judging?] using hj'
      obtain ⟨node, hnode, hn⟩ := h.judging.judges t j hj
      exact ⟨_, ht.kept node hnode, by simp [hn]⟩
    · by_cases hid : judgeId t' = judgeId t
      · obtain ⟨old, hold⟩ := Option.ne_none_iff_exists'.mp (h.judging.ne_none hj)
        obtain rfl := judgeId_inj hid
        exact h.judging.judged hplan t' old hold
      · rw [ht.other _ hid] at hnode
        exact h.judging.judged hplan t' node hnode
    · rcases hu with hu | hu | hu | hu <;> cases hu

theorem right_localCritique {critic : Tier} {model : Str} (h : g.Right late p)
    (he : p.Expects (.localCritique t critic model)) :
    (g.tell (.localCritique t critic model)).Right late
      (p.after (.localCritique t critic model)) := by
  obtain ⟨j, hmain⟩ : ∃ j, p.main = .judging t (j + 1) := he.allows
  have hd : Plain (.localCritique t critic model) := ⟨rfl, rfl, nofun⟩
  have hmain' : (p.after (.localCritique t critic model)).main = .critiquing t (j + 1) := by
    change p.main.critique = _
    rw [hmain]
    rfl
  have hj : p.main.judging? = some (t, j + 1) := by rw [hmain]; rfl
  have ht : Touched g (g.tell (.localCritique t critic model)) (judgeId t) (judgeNode t .running)
      (fun node => node.onAttempt (node.samples.length + 1) fun a => { a with lane := critic }) :=
    touched_onExisting rfl _
  have hm : g.Moves p (p.after (.localCritique t critic model)) (judgeId t) (some (j + 2)) := by
    refine hd.moves he (fun s hs => .inl ?_) (by simp [hmain, MainPhase.trying])
    rw [hmain] at hs
    rw [hmain']
    exact hs
  refine h.of_plain hd ht ⟨rfl, rfl⟩ hm (by rw [hmain']; nofun) (fun node hr hold => ?_) ?_
  · rw [h.judging.here hj hold]
    refine hm.attempt (writingAt_after rfl) hr rfl (fun _ => rfl) rfl (fun _ => rfl)
      (.inl (TryingAt.of_main (s := .judge t) ?_)) (.inr (BusyAt.of_main (s := .judge t) ?_))
    · rw [hmain']
      rfl
    · rw [hmain']
      rfl
  · refine h.judging.touched ht (fun _ => rfl) (.inl ?_) id rfl
      (fun _ _ _ => h.judging.ne_none hj) fun hu => ?_
    · rw [hmain', hmain]
      rfl
    · rw [hmain'] at hu
      rcases hu with hu | hu | hu | hu <;> cases hu

theorem right_localVerdict {v : Verdict} {w : Weights} (h : g.Right late p)
    (he : p.Expects (.localVerdict t v w)) :
    (g.tell (.localVerdict t v w)).Right late (p.after (.localVerdict t v w)) := by
  have hd : Plain (.localVerdict t v w) := ⟨rfl, rfl, nofun⟩
  have hmain' : (p.after (.localVerdict t v w)).main =
      if v.escalate then .routing else .trusted t :=
    rfl
  have hallows : if v.critique.skipped = true then ∃ j, p.main = .judging t j
    else ∃ j, p.main = .critiqued t j := he.allows
  obtain ⟨j, hphase, hcritiqued⟩ : ∃ j, (p.main = .judging t j ∨ p.main = .critiqued t j) ∧
      (v.critique.skipped = false → p.main = .critiqued t j) ∧
        (v.critique.skipped = true → p.main = .judging t j) := by
    cases hskip : v.critique.skipped with
    | true =>
        obtain ⟨j, hj⟩ := by simpa [hskip] using hallows
        exact ⟨j, .inl hj, nofun, fun _ => hj⟩
    | false =>
        obtain ⟨j, hj⟩ := by simpa [hskip] using hallows
        exact ⟨j, .inr hj, fun _ => hj, nofun⟩
  have hj : p.main.judging? = some (t, j) := by rcases hphase with h | h <;> rw [h] <;> rfl
  have hbusy : p.main.busy = some (.judge t) := by rcases hphase with h | h <;> rw [h] <;> rfl
  let f : Node → Node := fun node =>
    let node := { node with status := if v.escalate then .escalated else .passed }
    if v.critique.skipped then node
    else node.onAttempt (node.samples.length + 1) fun a =>
      { a with outcome := if v.critique.passed then .passed else .failed }
  have ht : Touched g (g.tell (.localVerdict t v w)) (judgeId t) (judgeNode t .running) f :=
    touched_onExisting rfl _
  have hsettled : ∀ node : Node, (f node).status.settled = true := by
    intro node
    simp only [f]
    split <;> cases v.escalate <;> rfl
  have hsamples : ∀ node, (f node).samples = node.samples := by
    intro node
    simp only [f]
    split <;> rfl
  have hjudging : (g.tell (.localVerdict t v w)).Judging (p.after (.localVerdict t v w)) := by
    refine h.judging.touched ht hsamples (.inr ?_) id rfl
      (fun _ _ _ => h.judging.ne_none hj) fun hu => ?_
    · rw [hmain']
      split <;> rfl
    · rw [hmain'] at hu
      split at hu <;> rcases hu with hu | hu | hu | hu <;> cases hu
  have hend : (p.after (.localVerdict t v w)).main ≠ .stopped := by
    rw [hmain']
    split <;> nofun
  have hlost : ∀ s, p.main.busy = some s → (p.after (.localVerdict t v w)).main.busy = some s ∨
      g.nodeOf s = judgeId t := by
    intro s hs
    rw [hbusy] at hs
    cases hs
    exact .inr rfl
  cases hskip : v.critique.skipped with
  | true =>
      have hm : g.Moves p (p.after (.localVerdict t v w)) (judgeId t) none :=
        hd.moves he hlost (by simp [hcritiqued.2 hskip, MainPhase.trying])
      refine h.of_plain hd ht ⟨rfl, rfl⟩ hm hend (fun node hr _ => ?_) hjudging
      have hf : f node = { node with status := if v.escalate then .escalated else .passed } := by
        simp [f, hskip]
      exact hm.plain hr (by rw [hf]) (by rw [hf]) (.inl (hsettled node))
  | false =>
      have hm : g.Moves p (p.after (.localVerdict t v w)) (judgeId t) (some (j + 1)) := by
        refine hd.moves he hlost fun s m hs => .inr ?_
        rw [hcritiqued.1 hskip] at hs
        cases hs
        exact ⟨rfl, rfl⟩
      refine h.of_plain hd ht ⟨rfl, rfl⟩ hm hend (fun node hr hold => ?_) hjudging
      have hn := h.judging.here hj hold
      have hf : f node =
          { node with status := if v.escalate then .escalated else .passed }.onAttempt (j + 1)
            fun a => { a with outcome := if v.critique.passed then .passed else .failed } := by
        simp [f, hskip, hn]
      have hr' : ({ node with status := if v.escalate then .escalated else .passed } : Node).Held
          (g.TryingAt late p (judgeId t)) (g.WritingAt late p (judgeId t)) :=
        ⟨hr.live, hr.numbers, hr.attempts⟩
      rw [hf]
      exact hm.attempt (writingAt_after rfl) hr' rfl (fun _ => rfl) rfl (fun _ => rfl)
        (.inr fun a => by split <;> nofun) (.inl (hf ▸ hsettled node))

theorem right_localAccepted {r : Option Str} (h : g.Right late p) (hp : p.Planned)
    (he : p.Expects (.localAccepted t r)) :
    (g.tell (.localAccepted t r)).Right late (p.after (.localAccepted t r)) := by
  have hallows : (p.main = .extracted ∧ t = .small) ∨ p.main = .trusted t := he.allows
  have hd : Plain (.localAccepted t r) := ⟨rfl, rfl, nofun⟩
  have htrying : p.main.trying = none := by rcases hallows with ⟨h, -⟩ | h <;> rw [h] <;> rfl
  have hunplanned : p.plan = none := by
    by_contra hne
    have hmain := hp.main (Option.isSome_iff_ne_none.mpr hne)
    rcases hallows with ⟨h, -⟩ | h <;> simp [h] at hmain
  cases hnode : g.nodes.get? (judgeId t) with
  | some node =>
      have htrusted : p.main = .trusted t := by
        refine hallows.resolve_left ?_
        rintro ⟨hmain, -⟩
        have := h.judging.judged hunplanned t node hnode
        rw [h.judging.unseen (.inr (.inr (.inr hmain)))] at this
        cases this
      have htell : g.tell (.localAccepted t r) =
          g.onExisting (judgeId t) fun node => { node with status := .passed } := by
        change g.localAccepted t = _
        rw [localAccepted, hnode]
      have ht : Touched g (g.tell (.localAccepted t r)) (judgeId t) (judgeNode t .running)
          (fun node => { node with status := .passed }) := touched_onExisting htell _
      have hm : g.Moves p (p.after (.localAccepted t r)) (judgeId t) none :=
        hd.moves he (by simp [htrusted, MainPhase.busy]) (by simp [htrying])
      refine h.of_plain hd ht ⟨rfl, rfl⟩ hm nofun (fun node hr _ => ?_) ?_
      · exact hm.plain hr rfl rfl (.inl rfl)
      · exact h.judging.touched ht (fun _ => rfl) (.inr rfl) id rfl
          (fun _ _ _ => by rw [hnode]; nofun)
          fun hu => by rcases hu with hu | hu | hu | hu <;> cases hu
  | none =>
      have htell : g.tell (.localAccepted t r) =
          g.onExisting triageId fun node => { node with status := .answered } := by
        change g.localAccepted t = _
        rw [localAccepted, hnode]
      have ht : Touched g (g.tell (.localAccepted t r)) triageId triageNode
          (fun node => { node with status := .answered }) := touched_onExisting htell _
      have hm : g.Moves p (p.after (.localAccepted t r)) triageId none := by
        refine hd.moves he (fun s hs => .inr ?_) (by simp [htrying])
        rcases hallows with ⟨h, -⟩ | h <;> rw [h] at hs <;> cases hs
        rfl
      refine h.of_plain hd ht ⟨rfl, rfl⟩ hm nofun (fun node hr _ => ?_) ?_
      · exact hm.plain hr rfl rfl (.inl rfl)
      · exact h.judging.touched ht (fun _ => rfl) (.inr rfl) id rfl
          (fun _ t hk => absurd hk (judgeId_ne_triageId t))
          fun hu => by rcases hu with hu | hu | hu | hu <;> cases hu

/-- An event that makes a step of the cloud the one the main flow is busy with. -/
theorem Right.of_cloud (h : g.Right late p) (hd : Plain d) (he : p.Expects d) {s : Step}
    (hk : ∀ t, g.nodeOf s ≠ judgeId t) (ht : Touched g (g.tell d) (g.nodeOf s) fresh f)
    (hblank : fresh.Blank) (hf : ∀ node, (f node).attempts = node.attempts ∧
      (f node).live = node.live ∧ (f node).samples = node.samples)
    (hbusy : ∀ s', p.main.busy = some s' → s' = s) (htrying : p.main.trying = none)
    (hafter : (p.after d).main.busy = some s) (hnot : s ≠ .triage)
    (hjudge : (p.after d).main.judging? = none)
    (hseen : (p.after d).seen = p.seen) : (g.tell d).Right late (p.after d) := by
  have hm : g.Moves p (p.after d) (g.nodeOf s) none := by
    refine hd.moves he (fun s' hs => .inr ?_) (by simp [htrying])
    rw [hbusy s' hs]
  have hend : (p.after d).main ≠ .stopped := by
    intro hstop
    rw [hstop] at hafter
    cases hafter
  refine h.of_plain hd ht hblank hm hend (fun node hr _ => ?_) ?_
  · exact hm.plain hr (hf node).1 (hf node).2.1 (.inr (.of_main hafter))
  · refine h.judging.touched ht (fun node => (hf node).2.2) (.inr hjudge) ?_ hseen
      (fun _ t hid => absurd hid (hk t)) fun hu => ?_
    · intro hplan
      rw [← Progress.plan_after hd.plan, hplan]
    · rcases hu with hu | hu | hu | hu <;> rw [hu] at hafter <;> cases hafter <;>
        exact absurd rfl hnot

theorem right_escalated {mode : CloudMode} {parts length : ℕ} {r : Option Str} (h : g.Right late p)
    (hp : p.Planned) (hmode : mode ≠ .auto) (he : p.Expects (.escalated t mode parts length r)) :
    (g.tell (.escalated t mode parts length r)).Right late
      (p.after (.escalated t mode parts length r)) := by
  obtain ⟨-, hbusy, htrying⟩ := between_spec hp (he.allows : p.Between)
  have hd : Plain (.escalated t mode parts length r) := ⟨rfl, rfl, nofun⟩
  cases mode with
  | auto => exact absurd rfl hmode
  | plan =>
      have ht : Touched g (g.tell (.escalated t .plan parts length r)) planId planNode
          (fun node => { node with status := .running }) := touched_onNode rfl
      exact h.of_cloud hd he (s := .plan) judgeId_ne_planId ht ⟨rfl, rfl⟩
        (fun _ => ⟨rfl, rfl, rfl⟩) (by simp [hbusy]) htrying rfl nofun rfl rfl
  | direct =>
      have ht : Touched g (g.tell (.escalated t .direct parts length r)) answerId
          (g.answerNode true)
          (fun node => { node with status := .running }) := touched_onNode rfl
      exact h.of_cloud hd he (s := .answer) judgeId_ne_answerId ht ⟨rfl, rfl⟩
        (fun _ => ⟨rfl, rfl, rfl⟩) (by simp [hbusy]) htrying rfl nofun rfl rfl

theorem right_answering (h : g.Right late p) (he : p.Expects (.answering t)) :
    (g.tell (.answering t)).Right late (p.after (.answering t)) := by
  have hmain : p.main = .direct := he.allows
  have ht : Touched g (g.tell (.answering t)) answerId (g.answerNode true)
      (fun node => { node with status := .running }) := touched_onNode rfl
  exact h.of_cloud ⟨rfl, rfl, nofun⟩ he (s := .answer) judgeId_ne_answerId ht ⟨rfl, rfl⟩
    (fun _ => ⟨rfl, rfl, rfl⟩) (by simp [hmain, MainPhase.busy])
    (by simp [hmain, MainPhase.trying]) rfl nofun rfl rfl

theorem right_synthesizing (h : g.Right late p) (he : p.Expects (.synthesizing t)) :
    (g.tell (.synthesizing t)).Right late (p.after (.synthesizing t)) := by
  have hmain : p.main = .planned := he.allows.1
  have ht : Touched g (g.tell (.synthesizing t)) answerId (g.answerNode false)
      (fun node => { node with status := .running }) := touched_onNode rfl
  exact h.of_cloud ⟨rfl, rfl, nofun⟩ he (s := .answer) judgeId_ne_answerId ht ⟨rfl, rfl⟩
    (fun _ => ⟨rfl, rfl, rfl⟩) (by simp [hmain, MainPhase.busy])
    (by simp [hmain, MainPhase.trying]) rfl nofun rfl rfl

theorem right_planInvalid {e : Str} (h : g.Right late p) (he : p.Expects (.planInvalid m e)) :
    (g.tell (.planInvalid m e)).Right late (p.after (.planInvalid m e)) := by
  obtain ⟨j, rfl, hmain⟩ : ∃ j, m = j + 1 ∧ p.main = .drafted j := he.allows
  have hd : Plain (.planInvalid (j + 1) e) := ⟨rfl, rfl, nofun⟩
  have ht : Touched g (g.tell (.planInvalid (j + 1) e)) planId planNode
      (Node.onAttempt (j + 1) fun a => { a with outcome := .failed }) := touched_onNode rfl
  have hm : g.Moves p (p.after (.planInvalid (j + 1) e)) planId (some (j + 1)) := by
    refine hd.moves he (fun s hs => .inl ?_) (by simp [hmain, MainPhase.trying])
    rw [hmain] at hs
    exact hs
  refine h.of_plain hd ht ⟨rfl, rfl⟩ hm nofun (fun node hr _ => ?_) ?_
  · exact hm.attempt (writingAt_after rfl) hr rfl (fun _ => rfl) rfl (fun _ => rfl)
      (.inr fun _ => nofun) (.inr (BusyAt.of_main (s := .plan) rfl))
  · exact h.judging.touched ht (fun _ => rfl) (.inr rfl) id rfl
      (fun _ t hk => absurd hk (judgeId_ne_planId t))
      fun hu => by rcases hu with hu | hu | hu | hu <;> cases hu

/-- A handler that leaves the nodes alone. -/
theorem touched_same (hlane : g'.taskLane = g.taskLane) (hnodes : g'.nodes = g.nodes) (k : Str)
    (fresh : Node) : Touched g g' k fresh fun node => node where
  lane := hlane
  other id _ := by rw [hnodes]
  here node' h := ⟨node', rfl, .inl (hnodes ▸ h)⟩
  kept node h := by rw [hnodes, h]

/-- When no node loses a reason, all stay right. -/
theorem Moves.still (h : ∀ k, g.Moves p p' k none) (hr : g.RightAt late p id node) :
    g.RightAt late p' id node := (h ('+' :: id)).rightAt (List.cons_ne_self '+' id).symm hr

/-- Events before any model was asked. -/
theorem Right.of_opening (h : g.Right late p) (hd : Plain d) (he : p.Expects d)
    (hmain : p.main = .begun ∨ p.main = .opened) (hafter : (p.after d).main = .opened)
    (hseen : (p.after d).seen = p.seen) (hlane : (g.tell d).taskLane = g.taskLane)
    (hnodes : (g.tell d).nodes = g.nodes) : (g.tell d).Right late (p.after d) := by
  have hidle : p.main.busy = none ∧ p.main.trying = none := by
    rcases hmain with h | h <;> rw [h] <;> exact ⟨rfl, rfl⟩
  have hm : ∀ k, g.Moves p (p.after d) k none := fun k =>
    hd.moves he (by simp [hidle.1]) (by simp [hidle.2])
  have hplan : (p.after d).plan = none → p.plan = none := by
    intro hp
    rw [← Progress.plan_after hd.plan, hp]
  refine ⟨fun id node hnode => ?_, ?_, fun hp key hkey => ?_, fun _ hstop => ?_⟩
  · rw [hnodes] at hnode
    exact (Moves.still hm (h.nodes id node hnode)).congr hlane
  · exact h.judging.touched (touched_same hlane hnodes triageId triageNode) (fun _ => rfl)
      (.inr (by rw [hafter]; rfl)) hplan hseen (fun _ t hk => absurd hk (judgeId_ne_triageId t))
      fun _ => h.judging.unseen (hmain.imp_right .inl)
  · refine h.unplanned (hplan hp) key ((Progress.mem_outputs_after.mp hkey).resolve_right ?_)
    rintro ⟨r, o, w, rfl, -⟩
    cases hd.record
  · rw [hafter] at hstop
    cases hstop

theorem right_runStarted {goal : Str} {tiers : List (Tier × Str × Json)} (h : g.Right late p)
    (he : p.Expects (.runStarted goal tiers)) :
    (g.tell (.runStarted goal tiers)).Right late (p.after (.runStarted goal tiers)) :=
  h.of_opening ⟨rfl, rfl, nofun⟩ he (.inl he.allows) rfl rfl rfl rfl

theorem right_providerNotice (h : g.Right late p) (he : p.Expects .providerNotice) :
    (g.tell .providerNotice).Right late (p.after .providerNotice) :=
  h.of_opening ⟨rfl, rfl, nofun⟩ he (.inr he.allows) he.allows rfl rfl rfl

theorem right_runCompleted {ms : Metrics} (h : g.Right late p) (he : p.Expects (.runCompleted ms)) :
    (g.tell (.runCompleted ms)).Right late (p.after (.runCompleted ms)) := by
  have hmain : p.main = .answered ∨ p.main = .accepted := he.allows.1
  have hd : Plain (.runCompleted ms) := ⟨rfl, rfl, nofun⟩
  have hset := touched_onExisting
    (g := { g with status := .completed, metrics := some ms, route := ms.route }) (k := answerId)
    (f := fun node => { node with status := .passed }) rfl (g.answerNode true)
  have ht : Touched g (g.tell (.runCompleted ms)) answerId (g.answerNode true)
      (fun node => { node with status := .passed }) :=
    ⟨hset.lane, hset.other, hset.here, hset.kept⟩
  have hm : g.Moves p (p.after (.runCompleted ms)) answerId none := by
    refine hd.moves he (fun s hs => .inr ?_) fun s m hs => ?_
    · rcases hmain with h | h <;> rw [h] at hs <;> cases hs
      rfl
    · rcases hmain with h | h <;> rw [h] at hs <;> cases hs
  refine h.of_plain hd ht ⟨rfl, rfl⟩ hm nofun (fun node hr _ => ?_) ?_
  · exact hm.plain hr rfl rfl (.inl rfl)
  · exact h.judging.touched ht (fun _ => rfl) (.inr rfl) id rfl
      (fun _ t hk => absurd hk (judgeId_ne_answerId t))
      fun hu => by rcases hu with hu | hu | hu | hu <;> cases hu

end Main

/-! ## The end -/

theorem get?_stop {status : GraphStatus} {ms : Metrics}
    (h : (g.stop status ms).nodes.get? id = some node) :
    ∃ old, g.nodes.get? id = some old ∧ node = Node.stop old := by
  obtain ⟨e, he, heq⟩ := List.mem_map.mp (Dict.mem_entries_iff.mpr h)
  obtain ⟨rfl, rfl⟩ := Prod.mk.injEq .. ▸ heq
  exact ⟨e.2, Dict.mem_entries_iff.mp he, rfl⟩

/-- A stopped node shows nothing under way. -/
theorem stop_settled (node : Node) :
    (Node.stop node).status ≠ .running ∧ (Node.stop node).status ≠ .queued ∧
      ∀ a ∈ (Node.stop node).attempts, a.outcome ≠ .running := by
  unfold Node.stop
  refine ⟨?_, ?_, fun a ha => ?_⟩
  · simp only
    split
    · nofun
    · rename_i hne
      exact fun hs => hne (.inl hs)
  · simp only
    split
    · nofun
    · rename_i hne
      exact fun hs => hne (.inr hs)
  · obtain ⟨b, hb, rfl⟩ := List.mem_map.mp ha
    split
    · nofun
    · assumption

theorem Right.stop (h : g.Right late p) {status : GraphStatus} {ms : Metrics}
    (hmain : p'.main = .stopped) (hout : p'.outputs = p.outputs)
    (hfin : p'.finished = p.finished) (hplan : p'.plan = p.plan) (hseen : p'.seen = p.seen) :
    (g.stop status ms).Right late p' where
  nodes id node hnode := by
    obtain ⟨old, hold, rfl⟩ := get?_stop hnode
    refine RightAt.congr (g := g) rfl ?_
    have hr := h.nodes id old hold
    have hw : ∀ m, g.WritingAt late p id m → g.WritingAt late p' id m := by
      rintro m (hl | ⟨s, hs, key, hkey⟩)
      · exact .inl hl
      · exact .inr ⟨s, hs, key, by rw [hout, hfin]; exact hkey⟩
    refine { status := fun _ => .inl (.inr hmain), live := fun hl => (hr.live hl).imp hw
             numbers := ?_
             attempts := fun a ha => ⟨fun _ => .inl (.inl (.inr hmain)), fun hl => ?_⟩ }
    · have hns : (Node.stop old).attempts.map Attempt.n = old.attempts.map Attempt.n := by
        simp only [Node.stop, List.map_map]
        refine List.map_congr_left fun a _ => ?_
        simp only [Function.comp_apply]
        split <;> rfl
      rw [hns]
      exact hr.numbers
    · obtain ⟨b, hb, rfl⟩ := List.mem_map.mp ha
      have hb' := (hr.attempts b hb).live
      split at hl
      · rename_i hrun
        simpa [hrun] using hw _ (hb' hl)
      · rename_i hrun
        simpa [hrun] using hw _ (hb' hl)
  judging := by
    refine ⟨fun t n hj => ?_, fun hp t node hnode => ?_, fun hu => ?_⟩
    · rw [hmain] at hj
      cases hj
    · obtain ⟨old, hold, -⟩ := get?_stop hnode
      rw [hseen]
      exact h.judging.judged (hplan ▸ hp) t old hold
    · rw [hmain] at hu
      rcases hu with hu | hu | hu | hu <;> cases hu
  unplanned hp := by
    rw [hout]
    exact h.unplanned (hplan ▸ hp)
  stopped _ _ id node hnode := by
    obtain ⟨old, -, rfl⟩ := get?_stop hnode
    exact stop_settled old

/-! ## Calls -/

section Calls
variable {r : CallRecord} {c : Call} {key : Key}

/-- A call in progress is one of a step that is not over. -/
theorem calling_busy (h : p.Calling key) : p.Busy key.step := by
  obtain ⟨slot, tier⟩ := key
  cases slot with
  | work i m =>
      have h : p.tasks i = some (.calling tier m) := h
      exact .inr ⟨i, tier, rfl, by rw [h]; rfl⟩
  | judge t m =>
      obtain ⟨j, -, h | h⟩ := h <;> exact .inl (by rw [h]; rfl)
  | plan m =>
      obtain ⟨j, -, h⟩ := h
      exact .inl (by rw [h]; rfl)
  | _ => exact .inl (by rw [show p.main = _ from h]; rfl)

/-- The attempt an event about a call is about. -/
theorem attempt_number (h : c.Recorded) : c.record.attempt.getD 1 = c.record.key.slot.number := by
  rw [h.key, h.attempt, Call.key, Call.slot]
  cases c.payload <;> rfl

/-- A call's handlers change the node of its step. -/
theorem touched_onCall (h : c.Recorded) (f : Node → Node) :
    ∃ fresh : Node, (fresh.Blank ∧ fresh.kind = g.kindOf c.record.key.step) ∧
      Touched g (g.onCall c.record f) (g.nodeOf c.record.key.step) fresh f := by
  rw [h.key]
  have hop := h.operation
  have hid := h.taskId
  have hfor := h.forTier
  unfold onCall Call.key Call.slot
  cases hp : c.payload with
  | attempt goal sources =>
      rw [hp] at hop
      rw [hop]
      exact ⟨triageNode, ⟨⟨rfl, rfl⟩, rfl⟩, touched_onExisting rfl _⟩
  | solve goal temperature attempt t =>
      rw [hp] at hop hfor
      rw [hop, hfor]
      exact ⟨judgeNode t .running, ⟨⟨rfl, rfl⟩, rfl⟩, touched_onExisting rfl _⟩
  | critique goal answer attempt t =>
      rw [hp] at hop hfor
      rw [hop, hfor]
      exact ⟨judgeNode t .running, ⟨⟨rfl, rfl⟩, rfl⟩, touched_onExisting rfl _⟩
  | answer goal context =>
      rw [hp] at hop
      rw [hop]
      exact ⟨g.answerNode true, ⟨⟨rfl, rfl⟩, rfl⟩, touched_onNode rfl⟩
  | plan goal sources error tiers context attempt =>
      rw [hp] at hop
      rw [hop]
      exact ⟨planNode, ⟨⟨rfl, rfl⟩, rfl⟩, touched_onNode rfl⟩
  | work task inputs goal attempt errors =>
      rw [hp] at hop hid
      rw [hop, hid]
      refine ⟨g.freshTaskNode task.id c.record.tier, ?_, touched_onNode rfl⟩
      change (g.freshTaskNode task.id c.record.tier).Blank ∧ _ = ite _ _ _
      unfold freshTaskNode
      split <;> exact ⟨⟨rfl, rfl⟩, rfl⟩
  | synthesize goal sources instruction results =>
      rw [hp] at hop
      rw [hop]
      exact ⟨g.answerNode false, ⟨⟨rfl, rfl⟩, rfl⟩, touched_onNode rfl⟩

/-- Once there is a plan, no model is judged any more. -/
theorem judging_planned (hp : p.Planned) (h : p.plan.isSome) (g : Graph) : g.Judging p := by
  have hmain := hp.main h
  refine ⟨fun t n hj => ?_, fun hnone => ?_, fun hu => ?_⟩
  · rcases hmain with h | h | h | h | h <;> rw [h] at hj <;> cases hj
  · rw [hnone] at h
    cases h
  · rcases hmain with h | h | h | h | h <;> rw [h] at hu <;>
      rcases hu with hu | hu | hu | hu <;> cases hu

/-- A model's node is there when one of its calls is in progress. -/
theorem Judging.calling (hj : g.Judging p) (hc : p.Calling key) (t : Tier)
    (hk : g.nodeOf key.step = judgeId t) :
    g.nodes.get? (judgeId t) ≠ none ∨ ∃ i, (p.tasks i).isSome := by
  obtain ⟨slot, tier⟩ := key
  cases slot with
  | judge t' m =>
      left
      obtain rfl := judgeId_inj hk
      obtain ⟨j, -, h | h⟩ := hc <;> exact hj.ne_none (t := t') (n := j) (by rw [h]; rfl)
  | work i m =>
      right
      have hc : p.tasks i = some (.calling tier m) := hc
      exact ⟨i, by rw [hc]; rfl⟩
  | extract => exact absurd hk (judgeId_ne_triageId t)
  | plan => exact absurd hk (judgeId_ne_planId t)
  | answer | synthesize => exact absurd hk (judgeId_ne_answerId t)

theorem right_callOutput {o : Str} {w : ℕ} (h : g.Right late p) (hp : p.Planned) (hc : c.Recorded)
    (he : p.Expects (.callOutput c.record o w)) :
    (g.tell (.callOutput c.record o w)).Right late (p.after (.callOutput c.record o w)) := by
  obtain ⟨hcalling, hopen⟩ : p.Calling c.record.key ∧ c.record.key ∉ p.finished := he.allows
  let f : Node → Node := fun node =>
    { node.onAttempt (c.record.attempt.getD 1) fun a => { a with live := some o } with
      live := some o }
  obtain ⟨fresh, ⟨hblank, -⟩, ht⟩ : ∃ fresh : Node,
      (fresh.Blank ∧ fresh.kind = g.kindOf c.record.key.step) ∧
        Touched g (g.tell (.callOutput c.record o w)) (g.nodeOf c.record.key.step) fresh f :=
    touched_onCall hc f
  have hm : g.Moves p (p.after (.callOutput c.record o w)) (g.nodeOf c.record.key.step)
      (some c.record.key.slot.number) :=
    .of he.1 (fun _ hs => .inl hs) (fun _ _ hs => .inl hs) (fun _ _ hs => .inl hs)
      (fun _ _ _ hs => .inl hs) (by rintro r ⟨⟩)
  have hwriting : g.WritingAt late (p.after (.callOutput c.record o w)) (g.nodeOf c.record.key.step)
      c.record.key.slot.number :=
    .inr ⟨_, rfl, c.record.key, Progress.mem_outputs_after.mpr (.inr ⟨_, _, _, rfl, rfl⟩), hopen,
      rfl, rfl⟩
  have hbusy : g.BusyAt late (p.after (.callOutput c.record o w)) (g.nodeOf c.record.key.step) :=
    .inr ⟨_, rfl, calling_busy (p := p) hcalling⟩
  refine ⟨ht.rightAt hblank hm h.nodes fun node hr _ => ?_, ?_, fun hplan key hkey => ?_,
    fun _ hstop => absurd hstop he.1⟩
  · have hat : (f node).attempts = (node.onAttempt c.record.key.slot.number fun a =>
        { a with live := some o }).attempts := by rw [← attempt_number hc]
    exact { toHeld := hm.heldAttempt hr hat (fun _ => rfl) (fun _ => ⟨_, hwriting⟩)
              fun a _ => ⟨fun _ => .inr hwriting, fun _ => hwriting⟩
            status := fun _ => hbusy }
  · by_cases hplan : p.plan.isSome
    · exact judging_planned (p := p.after (.callOutput c.record o w))
        ⟨hp.unplanned, hp.main⟩ hplan _
    · have hnone : p.plan = none := by simpa using hplan
      refine h.judging.touched ht (fun _ => rfl) (.inl rfl) id rfl (fun _ t hk => ?_)
        h.judging.unseen
      rw [hk]
      refine (h.judging.calling hcalling t hk).resolve_right ?_
      rintro ⟨i, hi⟩
      rw [hp.unplanned hnone i] at hi
      cases hi
  · rcases Progress.mem_outputs_after.mp hkey with hkey | ⟨r, o', w', heq, rfl⟩
    · exact h.unplanned hplan key hkey
    · cases heq
      intro i m hslot
      have htask : p.tasks i = some (.calling c.record.key.tier m) := by
        simpa [Progress.Calling, hslot] using hcalling
      rw [hp.unplanned hplan i] at htask
      cases htask

/-- Where the end of a call leaves its step. -/
structure Finishes (g : Graph) (p p' : Progress) (r : CallRecord) : Prop where
  moves : g.Moves p p' (g.nodeOf r.key.step) (some r.key.slot.number)
  busy : p'.Busy r.key.step
  trying : p'.Trying r.key.slot.number r.key.step ∨
    r.operation ≠ .work ∧ r.operation ≠ .solve ∧ r.operation ≠ .critique
  judging : p'.main.judging? = p.main.judging?

theorem finishes_main (he : p.Expects (.callFinished r)) {slot : Slot} (hslot : r.slot = slot)
    (hmain : slot.isMain = true) {ph : MainPhase} (hph : p.main = ph)
    (hbusy : ph.busy = some (slot.step r.tier))
    (hbusy' : (ph.finish slot).busy = some (slot.step r.tier))
    (htrying : ∀ s m, ph.trying = some (s, m) → s = slot.step r.tier ∧ m = slot.number)
    (hjudging : (ph.finish slot).judging? = ph.judging?)
    (htrying' : (ph.finish slot).trying = some (slot.step r.tier, slot.number) ∨
      r.operation ≠ .work ∧ r.operation ≠ .solve ∧ r.operation ≠ .critique) :
    Finishes g p (p.after (.callFinished r)) r := by
  subst hslot hph
  have hteller : (EventData.callFinished r).teller = .main := by
    simp only [EventData.teller]
    revert hmain
    cases r.slot <;> simp [Slot.isMain]
  refine ⟨.of_main hteller (by rintro tasks s ⟨⟩) he.1 (fun s hs => .inl ?_)
    (fun s m hs => .inr ?_) ?_,
    .inl hbusy', htrying'.imp_left .inl, hjudging⟩
  · rw [hbusy] at hs
    exact hs ▸ hbusy'
  · obtain ⟨rfl, rfl⟩ := htrying s m hs
    exact ⟨rfl, rfl⟩
  · rintro r' heq
    cases heq
    exact ⟨rfl, rfl⟩

/-- **The end of a call leaves its step to be judged.** One case for each kind of call. -/
theorem finishes (he : p.Expects (.callFinished r)) :
    Finishes g p (p.after (.callFinished r)) r := by
  have hcalling : p.Calling r.key := he.allows.1
  have hjudge : ∀ t m, r.slot = .judge t m → Finishes g p (p.after (.callFinished r)) r := by
    intro t m hslot
    obtain ⟨j, rfl, hmain | hmain⟩ : ∃ j, m = j + 1 ∧
        (p.main = .judging t j ∨ p.main = .critiquing t j) := by
      simpa [Progress.Calling, CallRecord.key, hslot] using hcalling
    · exact finishes_main he hslot rfl hmain rfl rfl (by rintro s m ⟨⟩) rfl (.inl rfl)
    · exact finishes_main he hslot rfl hmain rfl rfl (by rintro s m ⟨⟩; exact ⟨rfl, rfl⟩) rfl
        (.inl rfl)
  cases hop : r.operation with
  | solve => exact hjudge _ _ (by rw [CallRecord.slot, hop])
  | critique => exact hjudge _ _ (by rw [CallRecord.slot, hop])
  | attempt =>
      have hslot : r.slot = .extract := by rw [CallRecord.slot, hop]
      have hmain : p.main = .extracting := by
        simpa [Progress.Calling, CallRecord.key, hslot] using hcalling
      exact finishes_main he hslot rfl hmain rfl rfl (by rintro s m ⟨⟩; exact ⟨rfl, rfl⟩) rfl
        (.inr (by simp [hop]))
  | answer =>
      have hslot : r.slot = .answer := by rw [CallRecord.slot, hop]
      have hmain : p.main = .answering := by
        simpa [Progress.Calling, CallRecord.key, hslot] using hcalling
      exact finishes_main he hslot rfl hmain rfl rfl (by rintro s m ⟨⟩) rfl
        (.inr (by simp [hop]))
  | plan =>
      have hslot : r.slot = .plan (r.attempt.getD 1) := by rw [CallRecord.slot, hop]
      obtain ⟨j, -, hmain⟩ : ∃ j, r.attempt.getD 1 = j + 1 ∧ p.main = .planning j := by
        simpa [Progress.Calling, CallRecord.key, hslot] using hcalling
      exact finishes_main he hslot rfl hmain rfl rfl (by rintro s m ⟨⟩) rfl
        (.inr (by simp [hop]))
  | synthesize =>
      have hslot : r.slot = .synthesize := by rw [CallRecord.slot, hop]
      have hmain : p.main = .synthesizing := by
        simpa [Progress.Calling, CallRecord.key, hslot] using hcalling
      exact finishes_main he hslot rfl hmain rfl rfl (by rintro s m ⟨⟩) rfl
        (.inr (by simp [hop]))
  | work =>
      obtain ⟨i, hi⟩ : ∃ i, r.taskId.getD [] = i := ⟨_, rfl⟩
      have hslot : r.slot = .work i (r.attempt.getD 1) := by rw [CallRecord.slot, hop, hi]
      have htask : p.tasks i = some (.calling r.tier (r.attempt.getD 1)) := by
        simpa [Progress.Calling, CallRecord.key, hslot] using hcalling
      have hafter : (p.after (.callFinished r)).tasks i =
          some (.called r.tier (r.attempt.getD 1)) := by
        simp [Progress.after, tasksAfter, hslot]
      have hteller : (EventData.callFinished r).teller = .task i := by
        simp only [EventData.teller, hslot]
      have hstep : r.key.step = .task i r.tier := by
        simp [Key.step, CallRecord.key, hslot, Slot.step]
      have hnumber : r.key.slot.number = r.attempt.getD 1 := by
        simp [CallRecord.key, hslot, Slot.number]
      refine ⟨.of_task hteller he.1 (fun t ht => .inl ?_) (fun t m ht => .inl ?_) ?_,
        ?_, .inl ?_, ?_⟩
      · rw [htask] at ht
        rw [hafter]
        exact ht
      · rw [htask] at ht
        rw [hafter]
        exact ht
      · rintro r' heq
        cases heq
        exact ⟨rfl, rfl⟩
      · rw [hstep]
        exact .inr ⟨i, r.tier, rfl, by rw [hafter]; rfl⟩
      · rw [hstep, hnumber]
        exact .inr ⟨i, r.tier, rfl, by rw [hafter]; rfl⟩
      · rw [Progress.main_after (by simp [hteller])]

/-- The end of a call does not lead back to where no local model was asked. -/
theorem early_of_finish {ph : MainPhase} {slot : Slot}
    (h : ph.finish slot = .begun ∨ ph.finish slot = .opened ∨ ph.finish slot = .extracting ∨
      ph.finish slot = .extracted) :
    ph = .begun ∨ ph = .opened ∨ ph = .extracting ∨ ph = .extracted := by
  cases ph <;> cases slot <;> simp_all [MainPhase.finish]

theorem right_callFinished (h : g.Right late p) (hp : p.Planned) (hc : c.Recorded)
    (hp' : (p.after (.callFinished c.record)).Planned) (he : p.Expects (.callFinished c.record)) :
    (g.tell (.callFinished c.record)).Right late (p.after (.callFinished c.record)) := by
  have hfin : Finishes g p (p.after (.callFinished c.record)) c.record := finishes he
  have hcalling : p.Calling c.record.key := he.allows.1
  let fa : Attempt → Attempt := fun a =>
    { a with
      live := none
      lane := c.record.tier
      outcome :=
        if c.record.outcome = .failed then .error
        else if c.record.operation ≠ .work ∧ c.record.operation ≠ .solve ∧
          c.record.operation ≠ .critique then .passed
        else a.outcome }
  let f : Node → Node := fun node =>
    { node.onAttempt (c.record.attempt.getD 1) fa with
      live := none
      status := if c.record.outcome = .failed then .failed else node.status }
  obtain ⟨fresh, ⟨hblank, -⟩, ht⟩ : ∃ fresh : Node,
      (fresh.Blank ∧ fresh.kind = g.kindOf c.record.key.step) ∧
        Touched g (g.tell (.callFinished c.record)) (g.nodeOf c.record.key.step) fresh f :=
    touched_onCall hc f
  have hend : (p.after (.callFinished c.record)).main ≠ .stopped := by
    intro hstop
    have hended : (p.after (.callFinished c.record)).Ended := .inr hstop
    rcases (Progress.ended_after hended).resolve_right (by simp [EventData.metrics?]) with h | h
    · obtain ⟨m, h | h⟩ := he.2.1 h <;> cases h
    · exact he.1 h
  refine ⟨ht.rightAt hblank hfin.moves h.nodes fun node hr _ => ?_, ?_, fun hplan key hkey => ?_,
    fun _ hstop => absurd hstop hend⟩
  · have hat : (f node).attempts = (node.onAttempt c.record.key.slot.number fa).attempts := by
      rw [← attempt_number hc]
    refine { toHeld := hfin.moves.heldAttempt hr hat (fun _ => rfl) (fun hl => absurd rfl hl)
               fun a _ => ⟨fun hrun => ?_, fun hl => absurd rfl hl⟩
             status := fun _ => .inr ⟨_, rfl, hfin.busy⟩ }
    rcases hfin.trying with htry | hop
    · exact .inl (.inr ⟨_, rfl, htry⟩)
    · exfalso
      revert hrun
      simp only [fa, if_pos hop]
      split <;> simp
  · by_cases hplan : p.plan.isSome
    · exact judging_planned hp' hplan _
    · have hnone : p.plan = none := by simpa using hplan
      refine h.judging.touched ht (fun _ => rfl) (.inl hfin.judging) id rfl (fun _ t hk => ?_)
        fun hu => h.judging.unseen ?_
      · rw [hk]
        refine (h.judging.calling hcalling t hk).resolve_right ?_
        rintro ⟨i, hi⟩
        rw [hp.unplanned hnone i] at hi
        cases hi
      · exact early_of_finish hu
  · exact h.unplanned hplan key hkey

end Calls

/-! ## Tasks -/

section Tasks
variable {i : Str} {t : Tier} {m : ℕ}

/-- Handlers of events about a task change nodes only. -/
theorem right_of_task (hd : d.teller = .task i) (hp : p.Planned) (hp' : (p.after d).Planned)
    (he : p.Expects d)
    (hnodes : ∀ id node, g'.nodes.get? id = some node → g'.RightAt late (p.after d) id node) :
    g'.Right late (p.after d) := by
  have hplan : (p.after d).plan = p.plan := Progress.plan_after (by rintro tasks s rfl; cases hd)
  have hsome : p.plan.isSome := by
    obtain ⟨ph, hph, -⟩ := he.task hd
    by_contra hne
    rw [hp.unplanned (by simpa using hne) i] at hph
    cases hph
  refine ⟨hnodes, judging_planned hp' (hplan ▸ hsome) _, fun hnone => ?_, fun _ hstop => ?_⟩
  · rw [hplan] at hnone
    rw [hnone] at hsome
    cases hsome
  · rw [Progress.main_after (by rw [hd]; nofun)] at hstop
    exact absurd hstop he.1

theorem blank_freshTaskNode : (g.freshTaskNode i t).Blank := by
  unfold freshTaskNode
  split <;> exact ⟨rfl, rfl⟩

theorem BusyAt.of_task {ph : TaskPhase} (h : p.tasks i = some ph) (hph : ph.busy = some t) :
    g.BusyAt late p (g.nodeOf (.task i t)) := .inr ⟨_, rfl, .inr ⟨i, t, rfl, by rw [h]; exact hph⟩⟩

theorem Moves.of_task_event (he : p.Expects d) (hd : d.teller = .task i) (hrec : d.record? = none)
    {ph ph' : TaskPhase} (hph : p.tasks i = some ph) (hph' : (p.after d).tasks i = some ph')
    (hbusy : ∀ t, ph.busy = some t → ph'.busy = some t ∨ g.nodeOf (.task i t) = k)
    (htrying : ∀ t m, ph.trying = some (t, m) →
      ph'.trying = some (t, m) ∨ g.nodeOf (.task i t) = k ∧ n = some m) :
    g.Moves p (p.after d) k n := by
  refine .of_task hd he.1 (fun t ht => ?_) (fun t m ht => ?_)
    fun r hr => absurd hr (ne_callFinished hrec r)
  · rw [hph] at ht
    rw [hph']
    exact hbusy t ht
  · rw [hph] at ht
    rw [hph']
    exact htrying t m ht

theorem right_taskStarted {model : Option Str} (h : g.Right late p) (hp : p.Planned)
    (hp' : (p.after (.taskStarted i t m model)).Planned)
    (he : p.Expects (.taskStarted i t m model)) :
    (g.tell (.taskStarted i t m model)).Right late (p.after (.taskStarted i t m model)) := by
  have htask : p.tasks i = some (.next t m) := he.allows
  have hafter : (p.after (.taskStarted i t m model)).tasks i = some (.calling t m) :=
    Function.update_self _ _ _
  have ht : Touched g (g.tell (.taskStarted i t m model)) (g.nodeOf (.task i t))
      (g.freshTaskNode i t) (fun node =>
        { node.onAttempt m fun a => { a with lane := t } with status := .running }) :=
    touched_onNode rfl
  have hm : g.Moves p (p.after (.taskStarted i t m model)) (g.nodeOf (.task i t)) (some m) :=
    .of_task_event he rfl rfl htask hafter (fun _ h => .inl h) (by rintro t' m' ⟨⟩)
  refine right_of_task rfl hp hp' he (ht.rightAt blank_freshTaskNode hm h.nodes fun node hr _ => ?_)
  exact hm.attempt (writingAt_after rfl) hr rfl (fun _ => rfl) rfl (fun _ => rfl)
    (.inl (.inr ⟨_, rfl, .inr ⟨i, t, rfl, by rw [hafter]; rfl⟩⟩)) (.inr (.of_task hafter rfl))

theorem right_taskInvalid {e : Str} {j : Option Judgment} (h : g.Right late p) (hp : p.Planned)
    (hp' : (p.after (.taskInvalid i t m e j)).Planned)
    (he : p.Expects (.taskInvalid i t m e j)) :
    (g.tell (.taskInvalid i t m e j)).Right late (p.after (.taskInvalid i t m e j)) := by
  have htask : p.tasks i = some (.called t m) := he.allows
  have hafter : (p.after (.taskInvalid i t m e j)).tasks i = some (.next t (m + 1)) :=
    Function.update_self _ _ _
  have ht : Touched g (g.tell (.taskInvalid i t m e j)) (g.nodeOf (.task i t))
      (g.freshTaskNode i t) (fun node =>
        { node.onAttempt m fun a => { a with outcome := .failed } with status := .failed }) :=
    touched_onNode rfl
  have hm : g.Moves p (p.after (.taskInvalid i t m e j)) (g.nodeOf (.task i t)) (some m) :=
    .of_task_event he rfl rfl htask hafter (fun _ h => .inl h)
      (by rintro t' m' ⟨⟩; exact .inr ⟨rfl, rfl⟩)
  refine right_of_task rfl hp hp' he (ht.rightAt blank_freshTaskNode hm h.nodes fun node hr _ => ?_)
  exact hm.attempt (writingAt_after rfl) hr rfl (fun _ => rfl) rfl (fun _ => rfl)
    (.inr fun _ => nofun) (.inr (.of_task hafter rfl))

theorem right_taskCompleted {j : Option Judgment} {v : Json} (h : g.Right late p) (hp : p.Planned)
    (hp' : (p.after (.taskCompleted i t m j v)).Planned)
    (he : p.Expects (.taskCompleted i t m j v)) :
    (g.tell (.taskCompleted i t m j v)).Right late (p.after (.taskCompleted i t m j v)) := by
  have htask : p.tasks i = some (.called t m) := he.allows
  have hafter : (p.after (.taskCompleted i t m j v)).tasks i = some (.done t) :=
    Function.update_self _ _ _
  have hset : Touched g _ (g.nodeOf (.task i t)) (g.freshTaskNode i t) (fun node =>
      { node.onAttempt m fun a => { a with outcome := .passed } with status := .passed }) :=
    touched_onNode rfl
  have ht : Touched g (g.tell (.taskCompleted i t m j v)) (g.nodeOf (.task i t))
      (g.freshTaskNode i t) (fun node =>
        { node.onAttempt m fun a => { a with outcome := .passed } with status := .passed }) :=
    ⟨hset.lane, hset.other, hset.here, hset.kept⟩
  have hm : g.Moves p (p.after (.taskCompleted i t m j v)) (g.nodeOf (.task i t)) (some m) :=
    .of_task_event he rfl rfl htask hafter (by rintro t' ⟨⟩; exact .inr rfl)
      (by rintro t' m' ⟨⟩; exact .inr ⟨rfl, rfl⟩)
  refine right_of_task rfl hp hp' he (ht.rightAt blank_freshTaskNode hm h.nodes fun node hr _ => ?_)
  exact hm.attempt (writingAt_after rfl) hr rfl (fun _ => rfl) rfl (fun _ => rfl)
    (.inr fun _ => nofun) (.inl rfl)

theorem right_taskEscalated {old : Tier} {r : Option Str} (h : g.Right late p) (hp : p.Planned)
    (hp' : (p.after (.taskEscalated i t old m r)).Planned)
    (he : p.Expects (.taskEscalated i t old m r)) :
    (g.tell (.taskEscalated i t old m r)).Right late (p.after (.taskEscalated i t old m r)) := by
  obtain ⟨htask, -⟩ : p.tasks i = some (.next old m) ∧ t ≠ old := he.allows
  have hafter : (p.after (.taskEscalated i t old m r)).tasks i = some (.next t m) :=
    Function.update_self _ _ _
  have hm : g.Moves p (p.after (.taskEscalated i t old m r)) (g.nodeOf (.task i old)) none :=
    .of_task_event he rfl rfl htask hafter (by rintro t' ⟨⟩; exact .inr rfl) (by rintro t' m' ⟨⟩)
  let g₁ := g.onTask i old id
  let g₂ := g₁.onTask i t id
  have h₁ : Touched g g₁ (g.nodeOf (.task i old)) (g.freshTaskNode i old) id := touched_onNode rfl
  have h₂ : Touched g₁ g₂ (g.nodeOf (.task i t)) (g₁.freshTaskNode i t) id := touched_onNode rfl
  have h₃ : Touched g₂ (g.tell (.taskEscalated i t old m r)) (g.nodeOf (.task i old))
      (g₂.freshTaskNode i old) (fun node => { node with status := .escalated }) :=
        touched_onNode rfl
  -- a node either was there or is one of the two that were made, which are blank
  have hold : ∀ k node, g₂.nodes.get? k = some node → g.nodes.get? k = some node ∨
      node.Blank ∧ (k = g.nodeOf (.task i old) ∨ k = g.nodeOf (.task i t)) := by
    intro k node hnode
    have hfirst : g₁.nodes.get? k = some node → g.nodes.get? k = some node ∨
        node.Blank ∧ (k = g.nodeOf (.task i old) ∨ k = g.nodeOf (.task i t)) := by
      intro hnode
      by_cases hk : k = g.nodeOf (.task i old)
      · subst hk
        obtain ⟨node, rfl, hnode | ⟨rfl, -⟩⟩ := h₁.here node hnode
        · exact .inl hnode
        · exact .inr ⟨blank_freshTaskNode, .inl rfl⟩
      · exact .inl (h₁.other k hk ▸ hnode)
    by_cases hk : k = g.nodeOf (.task i t)
    · subst hk
      obtain ⟨node, rfl, hnode | ⟨rfl, -⟩⟩ := h₂.here node hnode
      · exact hfirst hnode
      · exact .inr ⟨blank_freshTaskNode, .inr rfl⟩
    · exact hfirst (h₂.other k hk ▸ hnode)
  refine right_of_task rfl hp hp' he fun k node hnode => RightAt.congr (g := g) rfl ?_
  by_cases hk : k = g.nodeOf (.task i old)
  · subst hk
    obtain ⟨last, heq, hlast⟩ := h₃.here node hnode
    have hheld : last.Held (g.TryingAt late p (g.nodeOf (.task i old)))
        (g.WritingAt late p (g.nodeOf (.task i old))) := by
      rcases hlast with hlast | ⟨rfl, -⟩
      · rcases hold _ last hlast with hlast | ⟨hblank, -⟩
        · exact (h.nodes _ last hlast).toHeld
        · exact hblank.held
      · exact blank_freshTaskNode.held
    rw [heq]
    exact hm.plain hheld rfl rfl (.inl rfl)
  · rw [h₃.other k hk] at hnode
    rcases hold k node hnode with hnode | ⟨hblank, hnew⟩
    · exact hm.rightAt hk (h.nodes k node hnode)
    · obtain rfl := hnew.resolve_left hk
      exact { toHeld := hblank.held, status := fun _ => .of_task hafter rfl }

end Tasks

/-! ## The plan -/

section Plan
variable {tasks : List Task} {rounds : Dict Str ℕ} {instruction : Str}

/-- The node a task of a plan gets. -/
def taskNode (rounds : Dict Str ℕ) (t : Task) : Node :=
  { kind := .task, lane := t.preferredTier, round := (rounds.get? t.id).getD 0
    taskId := some t.id, dependsOn := t.dependsOn }

theorem touched_addTask (t : Task) : (g.addTask rounds t).nodes.get? id =
    if id = t.id then some ((g.nodes.get? t.id).getD (taskNode rounds t)) else g.nodes.get? id :=
  get?_onNode (g := { g with taskLane := g.taskLane.set t.id t.preferredTier })

/-- The tasks of a plan get nodes, unless there is one with the id. -/
theorem get?_foldl_addTask (h : (tasks.foldl (addTask rounds) g).nodes.get? id = some node) :
    g.nodes.get? id = some node ∨ ∃ t ∈ tasks, t.id = id ∧ node = taskNode rounds t := by
  induction tasks generalizing g with
  | nil => exact .inl h
  | cons t tasks ih =>
      rcases ih h with h | ⟨u, hu, hid, hnode⟩
      · rw [touched_addTask] at h
        split at h
        · rename_i hid
          cases hold : g.nodes.get? t.id with
          | none =>
              rw [hold] at h
              cases h
              exact .inr ⟨t, by simp, hid.symm, rfl⟩
          | some old =>
              rw [hold] at h
              cases h
              exact .inl (hid ▸ hold)
        · exact .inl h
      · exact .inr ⟨u, by simp [hu], hid, hnode⟩

theorem lane_foldl_addTask (h : (tasks.map Task.id).Nodup) {t : Task} (ht : t ∈ tasks) :
    (tasks.foldl (addTask rounds) g).taskLane.get? t.id = some t.preferredTier := by
  have hkeep : ∀ (ts : List Task) (g : Graph), t.id ∉ ts.map Task.id →
      (ts.foldl (addTask rounds) g).taskLane.get? t.id = g.taskLane.get? t.id := by
    intro ts
    induction ts with
    | nil => exact fun _ _ => rfl
    | cons u ts ih =>
        intro g hnot
        rw [List.map_cons, List.mem_cons, not_or] at hnot
        rw [List.foldl_cons, ih _ hnot.2]
        exact (Dict.get?_set _ _ _ _).trans (if_neg hnot.1)
  induction tasks generalizing g with
  | nil => cases ht
  | cons u tasks ih =>
      rw [List.map_cons, List.nodup_cons] at h
      rcases List.mem_cons.mp ht with rfl | ht
      · rw [List.foldl_cons, hkeep tasks _ h.1]
        exact Dict.get?_set_self _ _ _
      · exact ih h.2 ht

theorem right_planCreated (h : g.Right late p) (hp : p.Planned)
    (hp' : (p.after (.planCreated tasks instruction)).Planned)
    (he : p.Expects (.planCreated tasks instruction)) :
    (g.tell (.planCreated tasks instruction)).Right late
      (p.after (.planCreated tasks instruction)) := by
  obtain ⟨⟨j, hmain⟩, hfit⟩ : (∃ j, p.main = .drafted j) ∧ PlanFit tasks := he.allows
  have hnone := hp.tasks_eq_none he
  have hplan : p.plan = none := by
    by_contra hne
    have := hp.main (Option.isSome_iff_ne_none.mpr hne)
    simp [hmain] at this
  obtain ⟨rounds, -, hrounds, -⟩ := exists_planRounds hfit.ids hfit.closed hfit.acyclic
  let g₁ := g.onNode planId planNode fun node => { node with status := .passed }
  have htell : g.tell (.planCreated tasks instruction) = tasks.foldl (addTask rounds) g₁ := by
    change g.planCreated tasks = _
    rw [planCreated, hrounds]
  -- before there was a plan no task had a reason for anything
  have hwriting : ∀ k m, g.WritingAt late p k m →
      (g.tell (.planCreated tasks instruction)).WritingAt late
        (p.after (.planCreated tasks instruction))
        k m := by
    rintro k m (hl | ⟨s, hs, key, hout, hfin, rfl, hm⟩)
    · exact .inl hl
    refine .inr ⟨key.step, ?_, key, hout, hfin, rfl, hm⟩
    rw [← hs]
    have hslot := h.unplanned hplan key hout
    obtain ⟨slot, tier⟩ := key
    cases slot with
    | work i m => exact absurd rfl (hslot i m)
    | _ => rfl
  have hright : ∀ k node, g.nodes.get? k = some node →
      node.Held ((g.tell (.planCreated tasks instruction)).TryingAt
          late (p.after (.planCreated tasks instruction)) k)
        ((g.tell (.planCreated tasks instruction)).WritingAt
          late (p.after (.planCreated tasks instruction)) k) ∧
      (k ≠ planId → late ∨ node.status.settled = true) := by
    intro k node hnode
    have hr := h.nodes k node hnode
    refine ⟨hr.toHeld.mono (fun m ht => ?_) (hwriting k), fun hk => ?_⟩
    · rcases ht with hl | ⟨s, -, hs | ⟨i, t, -, ht⟩⟩
      · exact .inl (.inl (hl.resolve_right he.1))
      · rw [hmain] at hs
        cases hs
      · rw [hnone] at ht
        cases ht
    · refine or_iff_not_imp_right.mpr fun hne => ?_
      rcases hr.status (by simpa using hne) with hl | ⟨s, hs, hb | ⟨i, t, -, ht⟩⟩
      · exact hl.resolve_right he.1
      · rw [hmain] at hb
        cases hb
        exact absurd hs.symm hk
      · rw [hnone] at ht
        cases ht
  refine ⟨fun k node hnode => ?_, judging_planned hp' rfl _,
    (fun hp => by cases hp), (fun _ hs => by cases hs)⟩
  have hnode' := hnode
  rw [htell] at hnode'
  rcases get?_foldl_addTask hnode' with hold | ⟨t, ht, rfl, rfl⟩
  · have ht : Touched g g₁ planId planNode (fun node => { node with status := .passed }) :=
      touched_onNode rfl
    by_cases hk : k = planId
    · subst hk
      obtain ⟨old, heq, hfound⟩ := ht.here node hold
      rw [heq]
      refine { toHeld := ?_, status := fun hs => by cases hs }
      rcases hfound with hold | ⟨rfl, -⟩
      · have hheld := (hright _ old hold).1
        exact ⟨hheld.live, hheld.numbers, hheld.attempts⟩
      · exact Node.Blank.held ⟨rfl, rfl⟩
    · rw [ht.other k hk] at hold
      obtain ⟨hheld, hsettled⟩ := hright k node hold
      refine { toHeld := hheld, status := fun hs => .inl (.inl ((hsettled hk).resolve_right ?_)) }
      rw [hs]
      nofun
  · refine { toHeld := Node.Blank.held ⟨rfl, rfl⟩
             status := fun _ => .inr ⟨.task t.id t.preferredTier, ?_, ?_⟩ }
    · have hlane : (g.tell (.planCreated tasks instruction)).taskLane.get? t.id =
          some t.preferredTier := htell ▸ lane_foldl_addTask hfit.ids ht
      simp [nodeOf, taskNodeId, hlane]
    · exact .inr ⟨t.id, t.preferredTier, rfl, by
        change (startPhases tasks t.id).bind _ = _
        rw [Progress.startPhases_eq hfit.ids ht]
        rfl⟩

end Plan

/-! ## Sequences of events -/

theorem right_empty : ({} : Graph).Right late {} where
  nodes id node h := by cases h
  judging := ⟨(fun t n h => by cases h), (fun _ t node h => by cases h), fun _ => rfl⟩
  unplanned _ key h := by cases h
  stopped _ h := by cases h

/-- **An expected event keeps the graph right.** -/
theorem Right.tell (h : g.Right late p) (hp : p.Planned) (hp' : (p.after d).Planned) (hd : d.Proper)
    (he : p.Expects d) : (g.tell d).Right late (p.after d) := by
  cases d with
  | runStarted => exact right_runStarted h he
  | providerNotice => exact right_providerNotice h he
  | localAttempt => exact right_localAttempt h he
  | extractFailed => exact right_extractFailed h he
  | localSkipped => exact right_localSkipped h hp he
  | localSolve => exact right_localSolve h hp he
  | localSample => exact right_localSample h he
  | localCritique => exact right_localCritique h he
  | localVerdict => exact right_localVerdict h he
  | localAccepted => exact right_localAccepted h hp he
  | escalated => exact right_escalated h hp hd he
  | answering => exact right_answering h he
  | planInvalid => exact right_planInvalid h he
  | planCreated => exact right_planCreated h hp hp' he
  | taskEscalated => exact right_taskEscalated h hp hp' he
  | taskStarted => exact right_taskStarted h hp hp' he
  | taskInvalid => exact right_taskInvalid h hp hp' he
  | taskCompleted => exact right_taskCompleted h hp hp' he
  | synthesizing => exact right_synthesizing h he
  | callFinished r =>
      obtain ⟨c, hc, rfl⟩ := hd
      exact right_callFinished h hp hc hp' he
  | callOutput r =>
      obtain ⟨c, hc, rfl⟩ := hd
      exact right_callOutput h hp hc he
  | runCompleted => exact right_runCompleted h he
  | runFailed => exact h.stop rfl rfl rfl rfl rfl
  | runCancelled => exact h.stop rfl rfl rfl rfl rfl

/-- The model of a node was seen when a call shown there was met, unless the call is a task's. -/
theorem seen_of_met {key : Key} {t : Tier} (h : p.Met key) (hslot : ∀ i m, key.slot ≠ .work i m)
    (hk : judgeId t = g.nodeOf key.step) : t ∈ p.seen := by
  obtain ⟨slot, tier⟩ := key
  cases slot with
  | judge t' m =>
      obtain rfl := judgeId_inj hk
      exact h
  | work i m => exact absurd rfl (hslot i m)
  | extract => exact absurd hk.symm (judgeId_ne_triageId t)
  | plan => exact absurd hk.symm (judgeId_ne_planId t)
  | answer | synthesize => exact absurd hk.symm (judgeId_ne_answerId t)

/-- **A late output keeps the graph right**, as far as it is right where outputs come late. -/
theorem Right.tell_late (h : g.Right late p) (hl : late) (hp : p.Planned) (hd : d.Proper)
    (hmet : ∀ key ∈ p.outputs, p.Met key) (he : p.Late d) : (g.tell d).Right late p := by
  obtain ⟨r, o, w, rfl, hout⟩ := he
  obtain ⟨c, hc, rfl⟩ := hd
  let f : Node → Node := fun node =>
    { node.onAttempt (c.record.attempt.getD 1) fun a => { a with live := some o } with
      live := some o }
  obtain ⟨fresh, ⟨hblank, -⟩, ht⟩ : ∃ fresh : Node,
      (fresh.Blank ∧ fresh.kind = g.kindOf c.record.key.step) ∧
        Touched g (g.tell (.callOutput c.record o w)) (g.nodeOf c.record.key.step) fresh f :=
    touched_onCall hc f
  refine ⟨fun id node hnode => RightAt.congr ht.lane ?_, ?_, h.unplanned, fun hn => absurd hl hn⟩
  · by_cases hid : id = g.nodeOf c.record.key.step
    · subst hid
      obtain ⟨node, rfl, hold⟩ := ht.here node hnode
      have hheld : node.Held (g.TryingAt late p (g.nodeOf c.record.key.step))
          (g.WritingAt late p (g.nodeOf c.record.key.step)) := by
        rcases hold with hold | ⟨rfl, -⟩
        · exact (h.nodes _ node hold).toHeld
        · exact hblank.held
      obtain ⟨hnumbers, hattempts⟩ := hheld.onAttempt (n := c.record.attempt.getD 1)
        (f := fun a => { a with live := some o }) (fun _ => rfl) (fun _ _ => ⟨id, id⟩)
        fun _ _ => ⟨fun _ => .inl (.inl (.inl hl)), fun _ => .inl hl⟩
      exact { live := fun _ => ⟨0, .inl hl⟩, numbers := hnumbers, attempts := hattempts
              status := fun _ => .inl (.inl hl) }
    · rw [ht.other id hid] at hnode
      exact h.nodes id node hnode
  · by_cases hplan : p.plan.isSome
    · exact judging_planned hp hplan _
    have hnone : p.plan = none := by simpa using hplan
    refine ⟨fun t n hj => ?_, fun _ t node hnode => ?_, h.judging.unseen⟩
    · obtain ⟨node, hnode, hn⟩ := h.judging.judges t n hj
      by_cases hk : judgeId t = g.nodeOf c.record.key.step
      · rw [hk] at hnode ⊢
        exact ⟨f node, ht.kept node hnode, hn⟩
      · exact ⟨node, by rw [ht.other _ hk, hnode], hn⟩
    · by_cases hk : judgeId t = g.nodeOf c.record.key.step
      · exact seen_of_met (hmet _ hout) (h.unplanned hnone _ hout) hk
      · rw [ht.other _ hk] at hnode
        exact h.judging.judged hnone t node hnode

theorem ofEvents_concat (es : List RelayEvent) (e : RelayEvent) :
    ofEvents (es ++ [e]) = (ofEvents es).tell e.data := by
  rw [ofEvents, List.foldl_append]
  rfl

/-- **The graph of an accepted sequence of events is right.** By induction on the events. -/
theorem right_of_accepts {es : List RelayEvent}
    (h : Progress.Accepts late (es.map RelayEvent.data)) (hes : ∀ e ∈ es, e.data.Proper) :
    (ofEvents es).Right late (.of (es.map RelayEvent.data)) := by
  induction es using List.reverseRecOn with
  | nil => exact right_empty
  | append_singleton es e ih =>
      have hp' := h.planned
      rw [List.map_append, List.map_singleton] at h hp' ⊢
      obtain ⟨h, he⟩ := Progress.accepts_concat.mp h
      rw [Progress.of_concat] at hp' ⊢
      rw [ofEvents_concat]
      have hright := ih h fun e' he' => hes e' (by simp [he'])
      rcases he with he | ⟨hl, he⟩
      · exact hright.tell h.planned hp' (hes e (by simp)) he
      · rw [he.after]
        exact hright.tell_late hl h.planned (hes e (by simp)) h.met he

end Graph

end HorizonRelay
