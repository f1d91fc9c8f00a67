import HorizonRelay.Graph
import HorizonRelay.Runs.Records
import HorizonRelay.Runs.Rounds

/-!
# The decision graph and the protocol

The graph is kept up to date by handlers that see one event at a time.  Whatever it shows as
unfinished has a reason in what the events have told so far: a step that is not over, an
attempt that was not judged, a call that wrote something and did not end.  Each event keeps
this, so a graph shows nothing unfinished once no reason is left.

The reasons are stated by node id, since a planner may give a task the id of another step's
node, and then one node stands for both.

## Main definitions

* `Step`, `Graph.nodeOf`, `Graph.kindOf` — the steps of a run and their nodes.
* `Progress.Busy`, `Progress.Trying`, `Progress.Writing` — the reasons.
* `Graph.Right` — what a graph shows is justified.

## Main results

* `Graph.Touched.rightAt` — one node changes at a time.
* `Graph.Moves.of_main`, `Graph.Moves.of_task` — what an event leaves of the reasons.
-/

namespace HorizonRelay

open Py

/-! ## Steps -/

/-- The steps of a run that have nodes of their own. -/
inductive Step : Type
  | triage
  | judge (tier : Tier)
  | plan
  | answer
  | task (id : Str) (tier : Tier)

/-- The step a call on a tier is made for. -/
def Slot.step (tier : Tier) : Slot → Step
  | .extract => .triage
  | .judge t _ => .judge t
  | .answer | .synthesize => .answer
  | .plan _ => .plan
  | .work id _ => .task id tier

def Key.step (k : Key) : Step := k.slot.step k.tier

/-- The number of the attempt a call is. -/
def Slot.number : Slot → ℕ
  | .judge _ n | .plan n | .work _ n => n
  | .extract | .answer | .synthesize => 1

/-- The id of a step's node. -/
def Graph.nodeOf (g : Graph) : Step → Str
  | .triage => triageId
  | .judge t => judgeId t
  | .plan => planId
  | .answer => answerId
  | .task id t => g.taskNodeId id t

/-- The kind of a step's node. -/
def Graph.kindOf (g : Graph) : Step → NodeKind
  | .triage => .triage
  | .judge _ => .judge
  | .plan => .plan
  | .answer => .answer
  | .task id t => if t = (g.taskLane.get? id).getD t then .task else .retry

/-- Neither under way nor failed. -/
def NodeStatus.settled : NodeStatus → Bool
  | .passed | .escalated | .skipped | .answered => true
  | _ => false

/-! ## Reasons -/

/-- The step the main flow is busy with. -/
def MainPhase.busy : MainPhase → Option Step
  | .extracting | .extracted => some .triage
  | .judging t _ | .sampled t _ | .critiquing t _ | .critiqued t _ => some (.judge t)
  | .planning _ | .drafted _ => some .plan
  | .direct | .answering | .synthesizing | .answered => some .answer
  | _ => none

/-- The attempt of the main flow that was begun and not judged. -/
def MainPhase.trying : MainPhase → Option (Step × ℕ)
  | .extracting => some (.triage, 1)
  | .sampled t n | .critiquing t n | .critiqued t n => some (.judge t, n + 1)
  | _ => none

/-- The local model that is judged, and the number of its answers. -/
def MainPhase.judging? : MainPhase → Option (Tier × ℕ)
  | .judging t n | .sampled t n | .critiquing t n | .critiqued t n => some (t, n)
  | _ => none

/-- The tier a task is on. -/
def TaskPhase.busy : TaskPhase → Option Tier
  | .next t _ | .calling t _ | .called t _ => some t
  | .done _ => none

/-- The attempt at a task that was begun and not judged. -/
def TaskPhase.trying : TaskPhase → Option (Tier × ℕ)
  | .calling t n | .called t n => some (t, n)
  | _ => none

namespace Progress

/-- The step is not over. -/
def Busy (p : Progress) (s : Step) : Prop :=
  p.main.busy = some s ∨
    ∃ id t, s = .task id t ∧ (p.tasks id).bind TaskPhase.busy = some t

/-- Attempt `n` at the step was begun and not judged. -/
def Trying (p : Progress) (n : ℕ) (s : Step) : Prop :=
  p.main.trying = some (s, n) ∨
    ∃ id t, s = .task id t ∧ (p.tasks id).bind TaskPhase.trying = some (t, n)

/-- The call that is attempt `n` at the step wrote something, and its end was not told. -/
def Writing (p : Progress) (n : ℕ) (s : Step) : Prop :=
  ∃ key ∈ p.outputs, key ∉ p.finished ∧ key.step = s ∧ key.slot.number = n

end Progress

namespace Graph

variable (g : Graph) (late : Prop) (p : Progress)

/-- A step at the node is not over, unless the run was stopped. Nothing is said where outputs
come late. -/
def BusyAt (id : Str) : Prop :=
  (late ∨ p.main = .stopped) ∨ ∃ s, g.nodeOf s = id ∧ p.Busy s

def TryingAt (id : Str) (n : ℕ) : Prop :=
  (late ∨ p.main = .stopped) ∨ ∃ s, g.nodeOf s = id ∧ p.Trying n s

def WritingAt (id : Str) (n : ℕ) : Prop := late ∨ ∃ s, g.nodeOf s = id ∧ p.Writing n s

end Graph

/-- An attempt that shows nothing without a reason. -/
structure Attempt.Right (trying writing : Prop) (a : Attempt) : Prop where
  outcome : a.outcome = .running → trying ∨ writing
  live : a.live ≠ none → writing

/-- A node that shows no attempt and no text without a reason. -/
structure Node.Held (trying writing : ℕ → Prop) (node : Node) : Prop where
  live : node.live ≠ none → ∃ n, writing n
  numbers : (node.attempts.map Attempt.n).Nodup
  attempts : ∀ a ∈ node.attempts, a.Right (trying a.n) (writing a.n)

/-- A node that shows nothing without a reason. -/
structure Node.Right (busy : Prop) (trying writing : ℕ → Prop) (node : Node) : Prop
    extends node.Held trying writing where
  status : node.status.settled = false → busy

/-- A node that shows neither attempts nor text. -/
structure Node.Blank (node : Node) : Prop where
  attempts : node.attempts = []
  live : node.live = none

/-- The node at an id is right. -/
def Graph.RightAt (g : Graph) (late : Prop) (p : Progress) (id : Str) (node : Node) : Prop :=
  node.Right (g.BusyAt late p id) (g.TryingAt late p id) (g.WritingAt late p id)

/-- What the handlers for local models rely on. -/
structure Graph.Judging (p : Progress) (g : Graph) : Prop where
  /-- The node of the model that is judged has its samples. -/
  judges : ∀ t n, p.main.judging? = some (t, n) →
    ∃ node, g.nodes.get? (judgeId t) = some node ∧ node.samples.length = n
  judged : p.plan = none → ∀ t node, g.nodes.get? (judgeId t) = some node → t ∈ p.seen
  unseen : p.main = .begun ∨ p.main = .opened ∨ p.main = .extracting ∨ p.main = .extracted →
    p.seen = []

/-- **What a graph shows is justified** by what the events have told. Where outputs come late,
its attempts are numbered and its local models are judged as they should be. -/
structure Graph.Right (late : Prop) (p : Progress) (g : Graph) : Prop where
  nodes : ∀ id node, g.nodes.get? id = some node → g.RightAt late p id node
  judging : g.Judging p
  /-- Before there is a plan, no call was made for a task. -/
  unplanned : p.plan = none → ∀ key ∈ p.outputs, ∀ id n, key.slot ≠ .work id n
  stopped : ¬ late → p.main = .stopped → ∀ id node, g.nodes.get? id = some node →
    node.status ≠ .running ∧ node.status ≠ .queued ∧ ∀ a ∈ node.attempts, a.outcome ≠ .running

/-! ## Attempts at a node -/

section Attempts
variable {node : Node} {n : ℕ} {f : Attempt → Attempt} {as : List Attempt}
  {busy busy' : Prop} {trying writing trying' writing' : ℕ → Prop}

theorem map_n_go (hf : ∀ a, (f a).n = a.n) : (Node.onAttempt.go n f node as).map Attempt.n =
    if n ∈ as.map Attempt.n then as.map Attempt.n else as.map Attempt.n ++ [n] := by
  induction as with
  | nil => simp [Node.onAttempt.go, hf]
  | cons a as ih =>
      rw [Node.onAttempt.go]
      by_cases h : a.n = n
      · simp [h, hf]
      · have hne : n ≠ a.n := fun hn => h hn.symm
        rw [if_neg h, List.map_cons, ih]
        by_cases hmem : n ∈ as.map Attempt.n
        · rw [if_pos hmem, if_pos (by simp only [List.map_cons, List.mem_cons, hmem, or_true])]
          rfl
        · rw [if_neg hmem, if_neg (by
            simp only [List.map_cons, List.mem_cons, hmem, or_false, hne, not_false_iff])]
          rfl

/-- Changing attempt `n` changes no other, and makes it if there was none. -/
theorem mem_go (h : (as.map Attempt.n).Nodup) {b : Attempt}
    (hb : b ∈ Node.onAttempt.go n f node as) : (b ∈ as ∧ b.n ≠ n) ∨
      ∃ a : Attempt, a.n = n ∧ b = f a ∧ (a ∈ as ∨ a.live = none) := by
  induction as with
  | nil =>
      obtain rfl := List.mem_singleton.mp hb
      exact .inr ⟨_, rfl, rfl, .inr rfl⟩
  | cons a as ih =>
      rw [List.map_cons, List.nodup_cons] at h
      rw [Node.onAttempt.go] at hb
      split at hb
      · rename_i ha
        rcases List.mem_cons.mp hb with rfl | hb
        · exact .inr ⟨a, ha, rfl, .inl (by simp)⟩
        · refine .inl ⟨by simp [hb], fun hn => h.1 ?_⟩
          rw [ha, ← hn]
          exact List.mem_map_of_mem hb
      · rename_i ha
        rcases List.mem_cons.mp hb with rfl | hb
        · exact .inl ⟨by simp, ha⟩
        · rcases ih h.2 hb with ⟨hmem, hn⟩ | ⟨c, hc, rfl, hmem⟩
          · exact .inl ⟨by simp [hmem], hn⟩
          · exact .inr ⟨c, hc, rfl, hmem.imp_left fun hmem => by simp [hmem]⟩

/-- Attempts stay right when one of them is changed, and the reasons of the others stay. -/
theorem Node.Held.onAttempt (h : node.Held trying writing) (hf : ∀ a, (f a).n = a.n)
    (hother : ∀ m ≠ n, (trying m → trying' m) ∧ (writing m → writing' m))
    (hthis : ∀ a : Attempt, (a.live ≠ none → writing n) → (f a).Right (trying' n) (writing' n)) :
    ((node.onAttempt n f).attempts.map Attempt.n).Nodup ∧
      ∀ a ∈ (node.onAttempt n f).attempts, a.Right (trying' a.n) (writing' a.n) := by
  refine ⟨?_, fun b hb => ?_⟩
  · change ((Node.onAttempt.go n f node node.attempts).map Attempt.n).Nodup
    rw [map_n_go hf]
    split
    · exact h.numbers
    · rename_i hn
      exact List.nodup_append.mpr ⟨h.numbers, by simp, fun m hm k hk hmk => by
        obtain rfl := List.mem_singleton.mp hk
        exact hn (hmk ▸ hm)⟩
  · rcases mem_go h.numbers hb with ⟨hmem, hn⟩ | ⟨a, rfl, rfl, hmem⟩
    · obtain ⟨ht, hw⟩ := hother b.n hn
      have hold := h.attempts b hmem
      exact ⟨fun hrun => (hold.outcome hrun).imp ht hw, fun hlive => hw (hold.live hlive)⟩
    · rw [hf]
      refine hthis a fun hlive => ?_
      rcases hmem with hmem | hnone
      · exact (h.attempts a hmem).live hlive
      · exact absurd hnone hlive

theorem Node.Blank.held (h : node.Blank) : node.Held trying writing := by
  refine ⟨fun hlive => absurd h.live hlive, ?_, ?_⟩ <;> simp [h.attempts]

theorem Node.Held.mono (h : node.Held trying writing) (ht : ∀ m, trying m → trying' m)
    (hw : ∀ m, writing m → writing' m) : node.Held trying' writing' where
  live hlive := (h.live hlive).imp hw
  numbers := h.numbers
  attempts a ha :=
    ⟨fun hrun => ((h.attempts a ha).outcome hrun).imp (ht _) (hw _),
      fun hlive => hw _ ((h.attempts a ha).live hlive)⟩

end Attempts

/-! ## One node at a time -/

namespace Graph

variable {g g' : Graph} {late : Prop} {p p' : Progress} {k id : Str} {fresh node : Node}
  {f : Node → Node} {n : Option ℕ} {s : Step}

theorem nodeOf_congr (h : g'.taskLane = g.taskLane) (s : Step) : g'.nodeOf s = g.nodeOf s := by
  cases s <;> simp only [nodeOf, taskNodeId, h]

/-- Only the node at `k` changes, as `f` says, from `fresh` if there was none. -/
structure Touched (g g' : Graph) (k : Str) (fresh : Node) (f : Node → Node) : Prop where
  lane : g'.taskLane = g.taskLane
  other : ∀ id, id ≠ k → g'.nodes.get? id = g.nodes.get? id
  here : ∀ node', g'.nodes.get? k = some node' → ∃ node, node' = f node ∧
    (g.nodes.get? k = some node ∨ node = fresh ∧ g.nodes.get? k = none)
  kept : ∀ node, g.nodes.get? k = some node → g'.nodes.get? k = some (f node)

theorem get?_onNode : (g.onNode k fresh f).nodes.get? id =
    if id = k then some (f ((g.nodes.get? k).getD fresh)) else g.nodes.get? id := by
  rw [onNode, Dict.get?_set]

theorem get?_onExisting : (g.onExisting k f).nodes.get? id =
    if id = k then (g.nodes.get? k).map f else g.nodes.get? id := by
  unfold onExisting
  split
  · rename_i node hnode
    rw [Dict.get?_set, hnode]
    rfl
  · rename_i hnode
    split
    · rename_i hid
      rw [hid, hnode]
      rfl
    · rfl

@[simp] theorem taskLane_onNode : (g.onNode k fresh f).taskLane = g.taskLane := rfl

@[simp] theorem taskLane_onExisting : (g.onExisting k f).taskLane = g.taskLane := by
  unfold onExisting
  split <;> rfl

theorem touched_onNode (h : g' = g.onNode k fresh f) : Touched g g' k fresh f := by
  subst h
  refine ⟨rfl, fun id hid => by rw [get?_onNode, if_neg hid], fun node' h => ?_, fun node h => ?_⟩
  · rw [get?_onNode, if_pos rfl] at h
    cases h
    cases hnode : g.nodes.get? k with
    | none => exact ⟨fresh, rfl, .inr ⟨rfl, rfl⟩⟩
    | some node => exact ⟨node, rfl, .inl rfl⟩
  · rw [get?_onNode, if_pos rfl, h, Option.getD_some]

theorem touched_onExisting (h : g' = g.onExisting k f) (fresh : Node) :
    Touched g g' k fresh f := by
  subst h
  refine ⟨taskLane_onExisting, fun id hid => by rw [get?_onExisting, if_neg hid], fun node' h => ?_,
    fun node h => ?_⟩
  · rw [get?_onExisting, if_pos rfl] at h
    obtain ⟨node, hnode, rfl⟩ := Option.map_eq_some_iff.mp h
    exact ⟨node, rfl, .inl hnode⟩
  · rw [get?_onExisting, if_pos rfl, h, Option.map_some]

/-- From `p` to `p'` only the node at `k` loses reasons, and only its attempt `n`. -/
structure Moves (g : Graph) (p p' : Progress) (k : Str) (n : Option ℕ) : Prop where
  going : p.main ≠ .stopped
  busy : ∀ s, p.Busy s → p'.Busy s ∨ g.nodeOf s = k
  trying : ∀ s m, p.Trying m s → p'.Trying m s ∨ g.nodeOf s = k ∧ n = some m
  writing : ∀ s m, p.Writing m s → p'.Writing m s ∨ g.nodeOf s = k ∧ n = some m

theorem Moves.busyAt (h : g.Moves p p' k n) (hid : id ≠ k) (hb : g.BusyAt late p id) :
    g.BusyAt late p' id := by
  rcases hb with hl | ⟨s, rfl, hs⟩
  · exact .inl (.inl (hl.resolve_right h.going))
  · exact .inr ⟨s, rfl, (h.busy s hs).resolve_right hid⟩

theorem Moves.tryingAt (h : g.Moves p p' k n) {m : ℕ} (hid : id ≠ k ∨ n ≠ some m)
    (ht : g.TryingAt late p id m) : g.TryingAt late p' id m := by
  rcases ht with hl | ⟨s, rfl, hs⟩
  · exact .inl (.inl (hl.resolve_right h.going))
  refine .inr ⟨s, rfl, (h.trying s m hs).resolve_right ?_⟩
  rintro ⟨hk, hn⟩
  exact hid.elim (· hk) (· hn)

theorem Moves.writingAt (h : g.Moves p p' k n) {m : ℕ} (hid : id ≠ k ∨ n ≠ some m)
    (hw : g.WritingAt late p id m) : g.WritingAt late p' id m := by
  rcases hw with hl | ⟨s, rfl, hs⟩
  · exact .inl hl
  refine .inr ⟨s, rfl, (h.writing s m hs).resolve_right ?_⟩
  rintro ⟨hk, hn⟩
  exact hid.elim (· hk) (· hn)

/-- Elsewhere nothing changes. -/
theorem Moves.rightAt (h : g.Moves p p' k n) (hid : id ≠ k) (hr : g.RightAt late p id node) :
    g.RightAt late p' id node where
  toHeld := hr.toHeld.mono (fun _ => h.tryingAt (.inl hid)) fun _ => h.writingAt (.inl hid)
  status hs := h.busyAt hid (hr.status hs)

/-- When no attempt loses a reason, what a node shows stays justified. -/
theorem Moves.held (h : g.Moves p p' k none)
    (hr : node.Held (g.TryingAt late p k) (g.WritingAt late p k)) :
    node.Held (g.TryingAt late p' k) (g.WritingAt late p' k) :=
  hr.mono (fun _ => h.tryingAt (.inr nofun)) fun _ => h.writingAt (.inr nofun)

/-- When attempt `m` may lose its reasons, what it shows is to be justified anew. -/
theorem Moves.heldAttempt {m : ℕ} {fa : Attempt → Attempt} {node' : Node}
    (h : g.Moves p p' k (some m)) (hr : node.Held (g.TryingAt late p k) (g.WritingAt late p k))
    (has : node'.attempts = (node.onAttempt m fa).attempts) (hn : ∀ a, (fa a).n = a.n)
    (hlive : node'.live ≠ none → ∃ n, g.WritingAt late p' k n)
    (hthis : ∀ a : Attempt, (a.live ≠ none → g.WritingAt late p k m) →
      (fa a).Right (g.TryingAt late p' k m) (g.WritingAt late p' k m)) :
    node'.Held (g.TryingAt late p' k) (g.WritingAt late p' k) := by
  have hother : ∀ m' ≠ m, (g.TryingAt late p k m' → g.TryingAt late p' k m') ∧
      (g.WritingAt late p k m' → g.WritingAt late p' k m') := by
    intro m' hm
    have hne : some m ≠ some m' := fun hs => hm (Option.some.inj hs).symm
    exact ⟨h.tryingAt (.inr hne), h.writingAt (.inr hne)⟩
  obtain ⟨hnodup, hall⟩ := hr.onAttempt hn hother hthis
  exact ⟨hlive, has ▸ hnodup, has ▸ hall⟩

theorem RightAt.congr (h : g'.taskLane = g.taskLane) (hr : g.RightAt late p id node) :
    g'.RightAt late p id node := by
  unfold RightAt BusyAt TryingAt WritingAt at hr ⊢
  simp only [nodeOf_congr h]
  exact hr

/-- A graph whose node at `k` was changed is right when that node is. -/
theorem Touched.rightAt (ht : Touched g g' k fresh f) (hblank : fresh.Blank)
    (hm : g.Moves p p' k n)
    (h : ∀ id node, g.nodes.get? id = some node → g.RightAt late p id node)
    (hhere : ∀ node, node.Held (g.TryingAt late p k) (g.WritingAt late p k) →
      (g.nodes.get? k = some node ∨ node = fresh ∧ g.nodes.get? k = none) →
        g.RightAt late p' k (f node)) :
    ∀ id node, g'.nodes.get? id = some node → g'.RightAt late p' id node := by
  intro id node hnode
  refine RightAt.congr ht.lane ?_
  by_cases hid : id = k
  · subst hid
    obtain ⟨node, rfl, hold⟩ := ht.here node hnode
    refine hhere node ?_ hold
    rcases hold with hold | ⟨rfl, -⟩
    · exact (h id node hold).toHeld
    · exact hblank.held
  · rw [ht.other id hid] at hnode
    exact hm.rightAt hid (h id node hnode)

/-! ## What an event leaves of the reasons -/

section Events
variable {d : EventData}

/-- What a call wrote stays unfinished until its end is told. -/
theorem writing_after {m : ℕ} (h : p.Writing m s) : (p.after d).Writing m s ∨
    ∃ r, d = .callFinished r ∧ r.key.step = s ∧ r.key.slot.number = m := by
  obtain ⟨key, hout, hfin, hs, hm⟩ := h
  by_cases hend : ∃ r, d = .callFinished r ∧ r.key = key
  · obtain ⟨r, hd, rfl⟩ := hend
    exact .inr ⟨r, hd, hs, hm⟩
  · refine .inl ⟨key, Progress.mem_outputs_after.mpr (.inl hout), fun hmem => ?_, hs, hm⟩
    rcases Progress.mem_finished_after.mp hmem with hmem | hmem
    · exact hfin hmem
    · exact hend hmem

/-- What is to be shown of an event, for its moves. -/
theorem Moves.of (hgo : p.main ≠ .stopped)
    (hbusy : ∀ s, p.main.busy = some s → (p.after d).main.busy = some s ∨ g.nodeOf s = k)
    (htrying : ∀ s m, p.main.trying = some (s, m) →
      (p.after d).main.trying = some (s, m) ∨ g.nodeOf s = k ∧ n = some m)
    (hbusyTask : ∀ id t, (p.tasks id).bind TaskPhase.busy = some t →
      ((p.after d).tasks id).bind TaskPhase.busy = some t ∨ g.nodeOf (.task id t) = k)
    (htryingTask : ∀ id t m, (p.tasks id).bind TaskPhase.trying = some (t, m) →
      ((p.after d).tasks id).bind TaskPhase.trying = some (t, m) ∨
        g.nodeOf (.task id t) = k ∧ n = some m)
    (hcall : ∀ r, d = .callFinished r → g.nodeOf r.key.step = k ∧ n = some r.key.slot.number) :
    g.Moves p (p.after d) k n where
  going := hgo
  busy s hs := by
    rcases hs with hs | ⟨id, t, rfl, ht⟩
    · exact (hbusy s hs).imp_left .inl
    · exact (hbusyTask id t ht).imp_left fun h => .inr ⟨id, t, rfl, h⟩
  trying s m hs := by
    rcases hs with hs | ⟨id, t, rfl, ht⟩
    · exact (htrying s m hs).imp_left .inl
    · exact (htryingTask id t m ht).imp_left fun h => .inr ⟨id, t, rfl, h⟩
  writing s m hs := by
    rcases writing_after hs with hs | ⟨r, hr, rfl, rfl⟩
    · exact .inl hs
    · exact .inr (hcall r hr)

/-- Events of the main flow leave the tasks alone, except for the one that makes them. -/
theorem Moves.of_main (hd : d.teller = .main) (hplan : ∀ tasks s, d ≠ .planCreated tasks s)
    (hgo : p.main ≠ .stopped)
    (hbusy : ∀ s, p.main.busy = some s → (p.after d).main.busy = some s ∨ g.nodeOf s = k)
    (htrying : ∀ s m, p.main.trying = some (s, m) →
      (p.after d).main.trying = some (s, m) ∨ g.nodeOf s = k ∧ n = some m)
    (hcall : ∀ r, d = .callFinished r → g.nodeOf r.key.step = k ∧ n = some r.key.slot.number) :
    g.Moves p (p.after d) k n := by
  have htasks : ∀ id, (p.after d).tasks id = p.tasks id := fun id =>
    Progress.tasks_after_of_ne (by rw [hd]; nofun) hplan
  refine .of hgo hbusy htrying (fun id t ht => ?_) (fun id t m ht => ?_) hcall
  · exact .inl (by rw [htasks, ht])
  · exact .inl (by rw [htasks, ht])

/-- Events about a task leave the main flow and the other tasks alone. -/
theorem Moves.of_task {i : Str} (hd : d.teller = .task i) (hgo : p.main ≠ .stopped)
    (hbusy : ∀ t, (p.tasks i).bind TaskPhase.busy = some t →
      ((p.after d).tasks i).bind TaskPhase.busy = some t ∨ g.nodeOf (.task i t) = k)
    (htrying : ∀ t m, (p.tasks i).bind TaskPhase.trying = some (t, m) →
      ((p.after d).tasks i).bind TaskPhase.trying = some (t, m) ∨
        g.nodeOf (.task i t) = k ∧ n = some m)
    (hcall : ∀ r, d = .callFinished r → g.nodeOf r.key.step = k ∧ n = some r.key.slot.number) :
    g.Moves p (p.after d) k n := by
  have hmain : (p.after d).main = p.main := Progress.main_after (by rw [hd]; nofun)
  have htasks : ∀ id, id ≠ i → (p.after d).tasks id = p.tasks id := by
    intro id hid
    refine Progress.tasks_after_of_ne ?_ ?_
    · rw [hd]
      intro h
      exact hid (by injection h with h; exact h.symm)
    · rintro tasks s rfl
      cases hd
  refine .of hgo (fun s hs => .inl (by rw [hmain, hs])) (fun s m hs => .inl (by rw [hmain, hs]))
    (fun id t ht => ?_) (fun id t m ht => ?_) hcall
  · by_cases hid : id = i
    · subst hid
      exact hbusy t ht
    · exact .inl (by rw [htasks id hid, ht])
  · by_cases hid : id = i
    · subst hid
      exact htrying t m ht
    · exact .inl (by rw [htasks id hid, ht])

/-- When the node of the model that is judged, if any, keeps its samples, and no node of
another model is made. -/
theorem Judging.touched (h : g.Judging p) (ht : Touched g g' k fresh f)
    (hsamples : ∀ node, (f node).samples = node.samples)
    (hmain : p'.main.judging? = p.main.judging? ∨ p'.main.judging? = none)
    (hplan : p'.plan = none → p.plan = none) (hseen : p'.seen = p.seen)
    (hmade : p'.plan = none → ∀ t, k = judgeId t → g.nodes.get? k ≠ none)
    (hunseen : p'.main = .begun ∨ p'.main = .opened ∨ p'.main = .extracting ∨
      p'.main = .extracted → p.seen = []) : g'.Judging p' where
  judges t n hj := by
    rcases hmain with hmain | hmain
    · obtain ⟨node, hnode, hn⟩ := h.judges t n (hmain ▸ hj)
      by_cases hk : judgeId t = k
      · rw [hk] at hnode ⊢
        exact ⟨f node, ht.kept node hnode, by rw [hsamples, hn]⟩
      · exact ⟨node, by rw [ht.other _ hk, hnode], hn⟩
    · rw [hmain] at hj
      cases hj
  judged hp t node hnode := by
    rw [hseen]
    by_cases hk : judgeId t = k
    · obtain ⟨old, hold⟩ := Option.ne_none_iff_exists'.mp (hmade hp t hk.symm)
      exact h.judged (hplan hp) t old (hk ▸ hold)
    · rw [ht.other _ hk] at hnode
      exact h.judged (hplan hp) t node hnode
  unseen hm := by
    rw [hseen]
    exact hunseen hm

end Events

end Graph

end HorizonRelay
