import HorizonRelay.Observe.Handlers
import HorizonRelay.Observe.Numbers

/-!
# Every call has an attempt of its own

The decision graph keeps the steps of a run apart: the attempt a call is shown as stands at a
node of the call's own kind, and no other call is shown there.  This needs that no task took
the id of the planner's, the answer's or the extraction's node; other nodes a task id cannot
name.

## Main definitions

* `Graph.laneAt`, `Graph.kindAt` — what a graph shows of an attempt and of a node.
* `Progress.Clear` — no task has the id of another step's node.
* `Graph.Apart` — attempts are those of calls that were begun, each at its own node.

## Main results

* `Graph.nodeOf_inj` — different steps have different nodes.
* `Graph.apart_of_accepts` — the graph of every accepted sequence of events is so.
-/

namespace HorizonRelay

open Py

/-! ## What a graph shows -/

/-- The lane of attempt `n` at a node. -/
def Node.laneOf (n : ℕ) (node : Node) : Option Tier :=
  (node.attempts.find? (·.n = n)).map Attempt.lane

theorem find?_go {as : List Attempt} {node : Node} {m n : ℕ} {f : Attempt → Attempt}
    (hf : ∀ a, (f a).n = a.n) :
    (Node.onAttempt.go m f node as).find? (·.n = n) =
      if n = m then some (f ((as.find? (·.n = m)).getD { n := m, lane := node.lane }))
      else as.find? (·.n = n) := by
  induction as with
  | nil =>
      by_cases h : n = m
      · subst h
        simp [Node.onAttempt.go, hf]
      · have hne : m ≠ n := fun hm => h hm.symm
        simp [Node.onAttempt.go, hf, h, hne]
  | cons a as ih =>
      rw [Node.onAttempt.go]
      by_cases ha : a.n = m
      · rw [if_pos ha]
        by_cases h : n = m
        · subst h
          simp [ha, hf]
        · have hne : m ≠ n := fun hm => h hm.symm
          simp [ha, hf, h, hne]
      · rw [if_neg ha, List.find?_cons, List.find?_cons, ih, List.find?_cons]
        by_cases h : n = m
        · subst h
          simp [ha]
        · simp [h]

theorem Node.laneOf_onAttempt {node : Node} {m n : ℕ} {f : Attempt → Attempt}
    (hf : ∀ a, (f a).n = a.n) (h : n ≠ m) : (node.onAttempt m f).laneOf n = node.laneOf n := by
  change ((Node.onAttempt.go m f node node.attempts).find? (·.n = n)).map _ = _
  rw [find?_go hf, if_neg h]
  rfl

/-- An attempt whose lane is not changed keeps it. -/
theorem Node.laneOf_onAttempt_keep {node : Node} {m n : ℕ} {f : Attempt → Attempt} {t : Tier}
    (hf : ∀ a, (f a).n = a.n) (hlane : ∀ a, (f a).lane = a.lane) (h : node.laneOf n = some t) :
    (node.onAttempt m f).laneOf n = some t := by
  change ((Node.onAttempt.go m f node node.attempts).find? (·.n = n)).map _ = _
  rw [find?_go hf]
  by_cases hn : n = m
  · subst hn
    obtain ⟨a, ha, rfl⟩ := Option.map_eq_some_iff.mp h
    rw [if_pos rfl, ha]
    simp [hlane]
  · rw [if_neg hn]
    exact h

theorem Node.laneOf_onAttempt_self {node : Node} {m : ℕ} {f : Attempt → Attempt} {t : Tier}
    (hf : ∀ a, (f a).n = a.n) (hlane : ∀ a, (f a).lane = t) :
    (node.onAttempt m f).laneOf m = some t := by
  change ((Node.onAttempt.go m f node node.attempts).find? (·.n = m)).map _ = _
  rw [find?_go hf, if_pos rfl]
  simp [hlane]

namespace Graph

/-- The lane shown for attempt `n` at the node with an id. -/
def laneAt (g : Graph) (id : Str) (n : ℕ) : Option Tier := (g.nodes.get? id).bind (Node.laneOf n)

def kindAt (g : Graph) (id : Str) : Option NodeKind := (g.nodes.get? id).map Node.kind

end Graph

/-! ## Node ids -/

/-- A planner's name for a task is one of letters, digits and underscores. -/
theorem notMem_of_isId {id : Str} (h : Plan.IsId id) : '@' ∉ id ∧ ':' ∉ id := by
  obtain ⟨c, rest, rfl, ⟨hc, hc'⟩, -, hrest⟩ := h
  have hchar : ∀ d, d ∈ c :: rest → ('a' ≤ d ∧ d ≤ 'z') ∨ ('0' ≤ d ∧ d ≤ '9') ∨ d = '_' := by
    intro d hd
    rcases List.mem_cons.mp hd with rfl | hd
    · exact .inl ⟨hc, hc'⟩
    · exact hrest d hd
  refine ⟨fun hmem => ?_, fun hmem => ?_⟩
  · exact absurd (hchar _ hmem) (by decide)
  · exact absurd (hchar _ hmem) (by decide)

theorem notMem_name (t : Tier) : '@' ∉ t.name ∧ ':' ∉ t.name := by cases t <;> decide

theorem name_inj {t t' : Tier} (h : t.name = t'.name) : t = t' := by
  revert h
  cases t <;> cases t' <;> decide

namespace Progress

/-- No task has the id of a node that is another step's. -/
def Clear (p : Progress) : Prop :=
  ∀ i, (p.tasks i).isSome → i ≠ Graph.triageId ∧ i ≠ Graph.planId ∧ i ≠ Graph.answerId

/-- A step the run can have. -/
def Has (p : Progress) : Step → Prop
  | .task i _ => (p.tasks i).isSome
  | _ => True

end Progress

namespace Graph

variable {g g' : Graph} {late : Prop} {p p' : Progress} {k id : Str} {fresh node : Node}
  {f : Node → Node} {m : Option ℕ} {n : ℕ} {d : EventData} {s s' : Step} {kind : NodeKind}
  {keys : List Key}

/-- What is known of the tasks of a run. -/
structure Tasks (g : Graph) (p : Progress) : Prop where
  ids : ∀ i, (p.tasks i).isSome → Plan.IsId i
  lanes : ∀ i, (p.tasks i).isSome → ∃ t, g.taskLane.get? i = some t
  nodes : ∀ i, (p.tasks i).isSome → g.kindAt i ≠ none

theorem Tasks.nodeOf (h : g.Tasks p) {i : Str} (hi : (p.tasks i).isSome) (t : Tier) :
    (g.nodeOf (.task i t) = i ∧ g.taskLane.get? i = some t) ∨
      (g.nodeOf (.task i t) = retryId i t ∧ g.taskLane.get? i ≠ some t) := by
  obtain ⟨lane, hlane⟩ := h.lanes i hi
  simp only [Graph.nodeOf, taskNodeId, hlane, Option.getD_some, Option.some.injEq]
  by_cases ht : t = lane
  · exact .inl ⟨if_pos ht, ht.symm⟩
  · exact .inr ⟨if_neg ht, fun h => ht (Option.some.inj h).symm⟩

/-- A task's nodes are no other step's. -/
theorem Tasks.nodeOf_ne (h : g.Tasks p) {i : Str} (hi : (p.tasks i).isSome)
    (hclear : i ≠ triageId ∧ i ≠ planId ∧ i ≠ answerId) (t : Tier) :
    g.nodeOf (.task i t) ≠ triageId ∧ g.nodeOf (.task i t) ≠ planId ∧
      g.nodeOf (.task i t) ≠ answerId ∧ ∀ t', g.nodeOf (.task i t) ≠ judgeId t' := by
  obtain ⟨hat, hcolon⟩ := notMem_of_isId (h.ids i hi)
  have hjudge : ∀ t', ':' ∈ judgeId t' := fun t' =>
    List.mem_append_left _ (by decide)
  rcases h.nodeOf hi t with ⟨hid, -⟩ | ⟨hid, -⟩ <;> rw [hid]
  · refine ⟨hclear.1, hclear.2.1, hclear.2.2, fun t' heq => hcolon ?_⟩
    rw [heq]
    exact hjudge t'
  · have hmem : '@' ∈ retryId i t := List.mem_append_right _ (List.mem_cons_self ..)
    refine ⟨fun heq => ?_, fun heq => ?_, fun heq => ?_, fun t' heq => ?_⟩
    · rw [heq] at hmem
      exact absurd hmem (by decide)
    · rw [heq] at hmem
      exact absurd hmem (by decide)
    · rw [heq] at hmem
      exact absurd hmem (by decide)
    · have := hjudge t'
      rw [← heq] at this
      rcases List.mem_append.mp this with hm | hm
      · exact hcolon hm
      · rcases List.mem_cons.mp hm with hm | hm
        · exact absurd hm (by decide)
        · exact (notMem_name t).2 hm

/-- **Different steps have different nodes**, when no task took the id of one. -/
theorem nodeOf_inj (h : g.Tasks p) (hclear : p.Clear) (hs : p.Has s) (hs' : p.Has s')
    (heq : g.nodeOf s = g.nodeOf s') : s = s' := by
  have htask : ∀ {i i' : Str} {t t' : Tier}, (p.tasks i).isSome → (p.tasks i').isSome →
      g.nodeOf (.task i t) = g.nodeOf (.task i' t') → i = i' ∧ t = t' := by
    intro i i' t t' hi hi' heq
    obtain ⟨hat, -⟩ := notMem_of_isId (h.ids i hi)
    obtain ⟨hat', -⟩ := notMem_of_isId (h.ids i' hi')
    have hmem : ∀ j u, '@' ∈ retryId j u := fun j u =>
      List.mem_append_right _ (List.mem_cons_self ..)
    rcases h.nodeOf hi t with ⟨hid, hlane⟩ | ⟨hid, hlane⟩ <;>
      rcases h.nodeOf hi' t' with ⟨hid', hlane'⟩ | ⟨hid', hlane'⟩ <;> rw [hid, hid'] at heq
    · subst heq
      exact ⟨rfl, Option.some.inj (hlane.symm.trans hlane')⟩
    · exact absurd (heq ▸ hmem i' t') hat
    · exact absurd (heq ▸ hmem i t) hat'
    · obtain ⟨rfl, -, hname⟩ := (List.append_cons_inj_of_notMem hat (notMem_name t).1).mp heq
      exact ⟨rfl, name_inj hname⟩
  have hplan : planId ≠ triageId ∧ planId ≠ answerId ∧ triageId ≠ answerId := by decide
  cases s with
  | task i t =>
      obtain ⟨h₁, h₂, h₃, h₄⟩ := h.nodeOf_ne hs (hclear i hs) t
      cases s' with
      | task i' t' =>
          obtain ⟨rfl, rfl⟩ := htask hs hs' heq
          rfl
      | triage => exact absurd heq h₁
      | plan => exact absurd heq h₂
      | answer => exact absurd heq h₃
      | judge t' => exact absurd heq (h₄ t')
  | triage =>
      cases s' with
      | task i t => exact absurd heq.symm (h.nodeOf_ne hs' (hclear i hs') t).1
      | triage => rfl
      | judge t => exact absurd heq (judgeId_ne_triageId t)
      | plan => exact absurd heq.symm hplan.1
      | answer => exact absurd heq hplan.2.2
  | plan =>
      cases s' with
      | task i t => exact absurd heq.symm (h.nodeOf_ne hs' (hclear i hs') t).2.1
      | triage => exact absurd heq hplan.1
      | judge t => exact absurd heq (judgeId_ne_planId t)
      | plan => rfl
      | answer => exact absurd heq hplan.2.1
  | answer =>
      cases s' with
      | task i t => exact absurd heq.symm (h.nodeOf_ne hs' (hclear i hs') t).2.2.1
      | triage => exact absurd heq.symm hplan.2.2
      | judge t => exact absurd heq (judgeId_ne_answerId t)
      | plan => exact absurd heq.symm hplan.2.1
      | answer => rfl
  | judge t =>
      cases s' with
      | task i t' => exact absurd heq.symm ((h.nodeOf_ne hs' (hclear i hs') t').2.2.2 t)
      | triage => exact absurd heq.symm (judgeId_ne_triageId t)
      | judge t' => rw [judgeId_inj heq]
      | plan => exact absurd heq.symm (judgeId_ne_planId t)
      | answer => exact absurd heq.symm (judgeId_ne_answerId t)

/-! ## Attempts and kinds -/

/-- Every attempt is one that was begun, at the node of its step, and every call of a list has
its attempt, at a node of its kind. -/
structure Apart (p : Progress) (keys : List Key) (g : Graph) : Prop where
  tasks : g.Tasks p
  begun : ∀ id n, g.laneAt id n ≠ none → p.main = .stopped ∨ ∃ s, g.nodeOf s = id ∧ p.Begun n s
  shown : p.Clear → ∀ key ∈ keys, g.laneAt (g.nodeOf key.step) key.slot.number = some key.tier
  kinds : ∀ id kind, g.kindAt id = some kind →
    ∃ s, p.Has s ∧ g.nodeOf s = id ∧ g.kindOf s = kind

/-- A handler changes what is shown at one node only, and there of attempt `m` only. -/
structure Marks (g g' : Graph) (k : Str) (m : Option ℕ) (kind : NodeKind) : Prop where
  lane : g'.taskLane = g.taskLane
  lanes : ∀ id n, g'.laneAt id n = g.laneAt id n ∨ id = k ∧ m = some n
  kinds : ∀ id, g'.kindAt id = g.kindAt id ∨ id = k ∧ g'.kindAt k = some kind

theorem Touched.marks (ht : Touched g g' k fresh f) (hblank : fresh.Blank)
    (hf : ∀ node, (g.nodes.get? k = some node ∨ node = fresh ∧ g.nodes.get? k = none) →
      (f node).kind = node.kind ∧ ∀ n, m ≠ some n → (f node).laneOf n = node.laneOf n) :
    g.Marks g' k m fresh.kind where
  lane := ht.lane
  lanes id n := by
    by_cases hid : id = k
    · subst hid
      by_cases hn : m = some n
      · exact .inr ⟨rfl, hn⟩
      · left
        unfold laneAt
        cases hnode : g'.nodes.get? id with
        | none =>
            cases hold : g.nodes.get? id with
            | none => rfl
            | some node =>
                rw [ht.kept node hold] at hnode
                cases hnode
        | some node' =>
            obtain ⟨node, rfl, hold⟩ := ht.here node' hnode
            rw [Option.bind_some, (hf node hold).2 n hn]
            rcases hold with hold | ⟨rfl, hold⟩ <;> rw [hold]
            · rfl
            · simp [Node.laneOf, hblank.attempts]
    · left
      rw [laneAt, laneAt, ht.other id hid]
  kinds id := by
    by_cases hid : id = k
    · subst hid
      unfold kindAt
      cases hnode : g'.nodes.get? id with
      | none =>
          cases hold : g.nodes.get? id with
          | none => exact .inl rfl
          | some node =>
              rw [ht.kept node hold] at hnode
              cases hnode
      | some node' =>
          obtain ⟨node, rfl, hold⟩ := ht.here node' hnode
          rw [Option.map_some, (hf node hold).1]
          rcases hold with hold | ⟨rfl, hold⟩ <;> rw [hold]
          · exact .inl rfl
          · exact .inr ⟨rfl, rfl⟩
    · left
      rw [kindAt, kindAt, ht.other id hid]

theorem kindOf_congr (h : g'.taskLane = g.taskLane) (s : Step) : g'.kindOf s = g.kindOf s := by
  cases s <;> simp only [kindOf, h]

/-- A handler of a step's node. -/
theorem Apart.marks (h : g.Apart p keys) (hm : g.Marks g' (g.nodeOf s) m (g.kindOf s))
    (hhas : p.Has s) (hbegun : ∀ n, m = some n → p.Begun n s) {keys' : List Key}
    (hshown : p.Clear → ∀ key ∈ keys',
      g'.laneAt (g.nodeOf key.step) key.slot.number = some key.tier) : g'.Apart p keys' where
  tasks := by
    refine ⟨h.tasks.ids, fun i hi => hm.lane ▸ h.tasks.lanes i hi, fun i hi => ?_⟩
    rcases hm.kinds i with hsame | ⟨rfl, hnew⟩
    · exact hsame ▸ h.tasks.nodes i hi
    · rw [hnew]
      exact Option.some_ne_none _
  begun id n hne := by
    simp only [nodeOf_congr hm.lane]
    rcases hm.lanes id n with hsame | ⟨rfl, hn⟩
    · exact h.begun id n (hsame ▸ hne)
    · exact .inr ⟨s, rfl, hbegun n hn⟩
  shown hclear key hkey := by
    rw [nodeOf_congr hm.lane]
    exact hshown hclear key hkey
  kinds id kind hkind := by
    simp only [nodeOf_congr hm.lane, kindOf_congr hm.lane]
    rcases hm.kinds id with hsame | ⟨rfl, hnew⟩
    · exact h.kinds id kind (hsame ▸ hkind)
    · rw [hnew] at hkind
      exact ⟨s, hhas, rfl, Option.some.inj hkind⟩

/-- A handler that takes no attempt off its lane. -/
theorem Apart.keeping (h : g.Apart p keys) (hm : g.Marks g' (g.nodeOf s) m (g.kindOf s))
    (hhas : p.Has s) (hbegun : ∀ n, m = some n → p.Begun n s)
    (hkeep : ∀ id n t, g.laneAt id n = some t → g'.laneAt id n = some t) : g'.Apart p keys :=
  h.marks hm hhas hbegun fun hclear key hkey => hkeep _ _ _ (h.shown hclear key hkey)

/-- A handler of an attempt that is not any of the calls'. -/
theorem Apart.starting (h : g.Apart p keys) (hm : g.Marks g' (g.nodeOf s) (some n) (g.kindOf s))
    (hhas : p.Has s) (hbegun : p.Begun n s) (hkeys : ∀ key ∈ keys, p.Has key.step)
    (hne : ∀ key ∈ keys, key.place ≠ (s, n)) : g'.Apart p keys := by
  refine h.marks hm hhas (fun n' hn => Option.some.inj hn ▸ hbegun) fun hclear key hkey => ?_
  rcases hm.lanes (g.nodeOf key.step) key.slot.number with hsame | ⟨hid, hn⟩
  · rw [hsame]
    exact h.shown hclear key hkey
  · refine absurd ?_ (hne key hkey)
    rw [Key.place, nodeOf_inj h.tasks hclear (hkeys key hkey) hhas hid, Option.some.inj hn]

/-! ## Handlers -/

theorem Node.laneOf_congr {node' : Node} (h : node'.attempts = node.attempts) (n : ℕ) :
    node'.laneOf n = node.laneOf n := by rw [Node.laneOf, Node.laneOf, h]

theorem Touched.keeps (ht : Touched g g' k fresh f)
    (hf : ∀ node n t, node.laneOf n = some t → (f node).laneOf n = some t) (id : Str) (n : ℕ)
    (t : Tier) (h : g.laneAt id n = some t) : g'.laneAt id n = some t := by
  obtain ⟨node, hnode, hlane⟩ := Option.bind_eq_some_iff.mp h
  by_cases hid : id = k
  · subst hid
    rw [laneAt, ht.kept node hnode, Option.bind_some]
    exact hf node n t hlane
  · rw [laneAt, ht.other id hid, hnode, Option.bind_some, hlane]

/-- A handler that leaves the attempts alone. -/
theorem Apart.plain (h : g.Apart p keys) (ht : Touched g g' (g.nodeOf s) fresh f)
    (hblank : fresh.Blank) (hkind : fresh.kind = g.kindOf s) (hhas : p.Has s)
    (hf : ∀ node, (f node).kind = node.kind ∧ (f node).attempts = node.attempts) :
    g'.Apart p keys := by
  refine h.keeping (hkind ▸ ht.marks (m := none) hblank fun node _ =>
    ⟨(hf node).1, fun n _ => Node.laneOf_congr (hf node).2 n⟩) hhas (fun _ hn => by cases hn) ?_
  refine ht.keeps fun node n t hlane => ?_
  rw [Node.laneOf_congr (hf node).2, hlane]

/-- A handler that changes an attempt, or makes it, and keeps its lane. -/
theorem Apart.attempt (h : g.Apart p keys) (ht : Touched g g' (g.nodeOf s) fresh f)
    (hblank : fresh.Blank) (hkind : fresh.kind = g.kindOf s) (hhas : p.Has s)
    {fa : Attempt → Attempt}
    (hf : ∀ node, (f node).kind = node.kind ∧ (f node).attempts = (node.onAttempt n fa).attempts)
    (hn : ∀ a, (fa a).n = a.n) (hlane : ∀ a, (fa a).lane = a.lane)
    (hbegun : p.Begun n s) : g'.Apart p keys := by
  have hothers : ∀ node n', some n ≠ some n' → (f node).laneOf n' = node.laneOf n' := by
    intro node n' hne
    rw [Node.laneOf_congr (hf node).2,
      Node.laneOf_onAttempt hn fun heq => hne (congrArg some heq.symm)]
  refine h.keeping (hkind ▸ ht.marks (m := some n) hblank fun node _ =>
    ⟨(hf node).1, hothers node⟩) hhas (fun n' hn' => Option.some.inj hn' ▸ hbegun) ?_
  refine ht.keeps fun node n' t hold => ?_
  rw [Node.laneOf_congr (hf node).2, Node.laneOf_onAttempt_keep hn hlane hold]

/-- A handler that leaves the nodes as they are. -/
theorem Apart.same (h : g.Apart p keys) (hlane : g'.taskLane = g.taskLane)
    (hlanes : ∀ id n, g'.laneAt id n = g.laneAt id n) (hkinds : ∀ id, g'.kindAt id = g.kindAt id) :
    g'.Apart p keys :=
  h.keeping (s := .plan) (m := none)
    ⟨hlane, fun id n => .inl (hlanes id n), fun id => .inl (hkinds id)⟩
    trivial (fun _ hn => by cases hn) fun id n t hold => by rw [hlanes, hold]

end Graph

namespace Progress

variable {p : Progress} {d : EventData} {ds : List EventData}

/-- Tasks are known from the plan on. -/
theorem Expects.known (h : p.Expects d) (hplan : ∀ tasks s, d ≠ .planCreated tasks s) (i : Str) :
    ((p.after d).tasks i).isSome ↔ (p.tasks i).isSome := by
  refine ⟨fun hi => ?_, fun hi => isSome_after hi hplan⟩
  by_cases hd : d.teller = .task i
  · obtain ⟨ph, hph, -⟩ := h.task hd
    rw [hph]
    rfl
  · rwa [tasks_after_of_ne hd hplan] at hi

theorem Expects.has (h : p.Expects d) (hplan : ∀ tasks s, d ≠ .planCreated tasks s) {s : Step}
    (hs : p.Has s) : (p.after d).Has s := by
  cases s with
  | task i t => exact (h.known hplan i).mpr hs
  | _ => trivial

/-- A call told to be finished is one of a step of the run. -/
theorem Past.has {key : Key} (h : p.Past key) : p.Has key.step := by
  obtain ⟨slot, tier⟩ := key
  cases slot with
  | work i n =>
      obtain ⟨ph, hph, -⟩ := h
      change (p.tasks i).isSome
      rw [hph]
      rfl
  | _ => trivial

/-- So is one whose output was told. -/
theorem Met.has {key : Key} (h : p.Met key) : p.Has key.step := by
  obtain ⟨slot, tier⟩ := key
  cases slot with
  | work i n => exact h
  | _ => trivial

/-- So is one in progress. -/
theorem Calling.has {key : Key} (h : p.Calling key) : p.Has key.step := by
  obtain ⟨slot, tier⟩ := key
  cases slot with
  | work i n =>
      have h : p.tasks i = some (.calling tier n) := h
      change (p.tasks i).isSome
      rw [h]
      rfl
  | _ => trivial

end Progress

namespace Graph

variable {g g' : Graph} {late : Prop} {p p' : Progress} {k id : Str} {fresh node : Node}
  {f : Node → Node} {m : Option ℕ} {n : ℕ} {d : EventData} {s s' : Step} {kind : NodeKind}
  {keys : List Key}

/-- What an event tells does not make the graph wrong. -/
theorem Apart.moved (h : g.Apart p keys) (hp : p.Planned) (hj : p.Judged) (he : p.Expects d)
    (hplan : ∀ tasks s, d ≠ .planCreated tasks s) : g.Apart (p.after d) keys where
  tasks := ⟨fun i hi => h.tasks.ids i ((he.known hplan i).mp hi),
    fun i hi => h.tasks.lanes i ((he.known hplan i).mp hi),
    fun i hi => h.tasks.nodes i ((he.known hplan i).mp hi)⟩
  begun id n hne := by
    obtain ⟨s, hs, hbegun⟩ := (h.begun id n hne).resolve_left he.1
    exact (hbegun.after hp hj he).symm.imp_right fun hb => ⟨s, hs, hb⟩
  shown hclear := h.shown fun i hi => hclear i ((he.known hplan i).mpr hi)
  kinds id kind hkind := by
    obtain ⟨s, hs, hrest⟩ := h.kinds id kind hkind
    exact ⟨s, he.has hplan hs, hrest⟩

/-! ### The main flow -/

section Main
variable {t : Tier}

/-- The critic's attempt is put in the critic's lane before its call is made. -/
theorem apart_localCritique {critic : Tier} {model : Str} (hr : g.Right late p)
    (he : p.Expects (.localCritique t critic model))
    (h : g.Apart (p.after (.localCritique t critic model)) keys)
    (hpast : ∀ key ∈ keys, (p.after (.localCritique t critic model)).Past key) :
    (g.tell (.localCritique t critic model)).Apart
      (p.after (.localCritique t critic model)) keys := by
  obtain ⟨j, hmain⟩ : ∃ j, p.main = .judging t (j + 1) := he.allows
  have hmain' : (p.after (.localCritique t critic model)).main = .critiquing t (j + 1) := by
    change p.main.critique = _
    rw [hmain]
    rfl
  have hj : p.main.judging? = some (t, j + 1) := by rw [hmain]; rfl
  have ht : Touched g (g.tell (.localCritique t critic model)) (judgeId t) (judgeNode t .running)
      (fun node => node.onAttempt (node.samples.length + 1) fun a => { a with lane := critic }) :=
    touched_onExisting rfl _
  have hcalling : (p.after (.localCritique t critic model)).Calling ⟨.judge t (j + 2), critic⟩ :=
    ⟨j + 1, rfl, .inr hmain'⟩
  refine h.starting (s := .judge t) (n := j + 2)
    (ht.marks (m := some (j + 2)) ⟨rfl, rfl⟩ fun node hold => ⟨rfl, fun n hn => ?_⟩) trivial ?_
    (fun key hkey => (hpast key hkey).has) fun key hkey => hcalling.place_ne (hpast key hkey)
  · rw [hr.judging.here hj hold]
    exact Node.laneOf_onAttempt (fun _ => rfl) fun heq => hn (congrArg some heq.symm)
  · exact .inr (.inl (.inl (by rw [hmain']; rfl)))

theorem apart_localVerdict {v : Verdict} {w : Weights} (hr : g.Right late p) (hj : p.Judged)
    (he : p.Expects (.localVerdict t v w)) (h : g.Apart (p.after (.localVerdict t v w)) keys) :
    (g.tell (.localVerdict t v w)).Apart (p.after (.localVerdict t v w)) keys := by
  have hallows : if v.critique.skipped = true then ∃ j, p.main = .judging t j
    else ∃ j, p.main = .critiqued t j := he.allows
  cases hskip : v.critique.skipped with
  | true =>
      have ht : Touched g (g.tell (.localVerdict t v w)) (g.nodeOf (.judge t))
          (judgeNode t .running) _ := touched_onExisting rfl _
      refine h.plain ht ⟨rfl, rfl⟩ rfl trivial fun node => ?_
      simp [hskip]
  | false =>
      obtain ⟨j, hmain⟩ := by simpa [hskip] using hallows
      have hjudging : p.main.judging? = some (t, j) := by rw [hmain]; rfl
      let f : Node → Node := fun node =>
        let node := { node with status := if v.escalate then .escalated else .passed }
        if v.critique.skipped then node
        else node.onAttempt (node.samples.length + 1) fun a =>
          { a with outcome := if v.critique.passed then .passed else .failed }
      have ht : Touched g (g.tell (.localVerdict t v w)) (judgeId t) (judgeNode t .running) f :=
        touched_onExisting rfl _
      have hf : ∀ node, f node = ({ node with status := if v.escalate then .escalated else .passed }
          : Node).onAttempt (node.samples.length + 1) fun a =>
            { a with outcome := if v.critique.passed then .passed else .failed } := by
        intro node
        simp [f, hskip]
      refine h.keeping (s := .judge t) (m := some (j + 1))
        (ht.marks ⟨rfl, rfl⟩ fun node hold => ⟨by rw [hf]; rfl, fun n hn => ?_⟩) trivial
        (fun n hn => ?_) (ht.keeps fun node n t' hold => ?_)
      · rw [hf, hr.judging.here hjudging hold]
        exact Node.laneOf_onAttempt (fun _ => rfl) fun heq => hn (congrArg some heq.symm)
      · obtain rfl := Option.some.inj hn
        obtain ⟨key, hkey, hplace⟩ := hj.main (.judge t, j + 1) (by rw [hmain]; rfl)
        exact .inl ⟨key, Progress.finished_subset_after hkey, hplace⟩
      · rw [hf]
        exact Node.laneOf_onAttempt_keep (fun _ => rfl) (fun _ => rfl) hold

theorem apart_localAccepted {r : Option Str} (h : g.Apart (p.after (.localAccepted t r)) keys) :
    (g.tell (.localAccepted t r)).Apart (p.after (.localAccepted t r)) keys := by
  cases hnode : g.nodes.get? (judgeId t) with
  | some node =>
      have htell : g.tell (.localAccepted t r) =
          g.onExisting (judgeId t) fun node => { node with status := .passed } := by
        change g.localAccepted t = _
        rw [localAccepted, hnode]
      exact h.plain (s := .judge t) (touched_onExisting htell (judgeNode t .running)) ⟨rfl, rfl⟩ rfl
        trivial fun _ => ⟨rfl, rfl⟩
  | none =>
      have htell : g.tell (.localAccepted t r) =
          g.onExisting triageId fun node => { node with status := .answered } := by
        change g.localAccepted t = _
        rw [localAccepted, hnode]
      exact h.plain (s := .triage) (touched_onExisting htell triageNode) ⟨rfl, rfl⟩ rfl trivial
        fun _ => ⟨rfl, rfl⟩

theorem apart_escalated {mode : CloudMode} {parts length : ℕ} {r : Option Str}
    (h : g.Apart (p.after (.escalated t mode parts length r)) keys) :
    (g.tell (.escalated t mode parts length r)).Apart
      (p.after (.escalated t mode parts length r)) keys := by
  cases mode with
  | direct =>
      have ht : Touched g (g.tell (.escalated t .direct parts length r)) answerId
          (g.answerNode true)
          (fun node => { node with status := .running }) := touched_onNode rfl
      exact h.plain (s := .answer) ht ⟨rfl, rfl⟩ rfl trivial fun _ => ⟨rfl, rfl⟩
  | plan | auto =>
      have ht : Touched g (g.onNode planId planNode fun node => { node with status := .running })
          planId planNode (fun node => { node with status := .running }) := touched_onNode rfl
      exact h.plain (s := .plan) ht ⟨rfl, rfl⟩ rfl trivial fun _ => ⟨rfl, rfl⟩

end Main

/-! ### Tasks -/

section Tasks
variable {i : Str} {t : Tier} {j : ℕ}

theorem kind_freshTaskNode : (g.freshTaskNode i t).kind = g.kindOf (.task i t) := by
  unfold freshTaskNode
  change _ = ite _ _ _
  split <;> rfl

theorem apart_taskStarted {model : Option Str}
    (h : g.Apart (p.after (.taskStarted i t j model)) keys)
    (hpast : ∀ key ∈ keys, (p.after (.taskStarted i t j model)).Past key) :
    (g.tell (.taskStarted i t j model)).Apart (p.after (.taskStarted i t j model)) keys := by
  have hafter : (p.after (.taskStarted i t j model)).tasks i = some (.calling t j) :=
    Function.update_self _ _ _
  have ht : Touched g (g.tell (.taskStarted i t j model)) (g.nodeOf (.task i t))
      (g.freshTaskNode i t) (fun node =>
        { node.onAttempt j fun a => { a with lane := t } with status := .running }) :=
    touched_onNode rfl
  have hcalling : (p.after (.taskStarted i t j model)).Calling ⟨.work i j, t⟩ := hafter
  refine h.starting (s := .task i t) (n := j)
    (kind_freshTaskNode ▸ ht.marks blank_freshTaskNode fun node _ => ⟨rfl, fun n hn => ?_⟩) ?_ ?_
    (fun key hkey => (hpast key hkey).has) fun key hkey => hcalling.place_ne (hpast key hkey)
  · exact Node.laneOf_onAttempt (fun _ => rfl) fun heq => hn (congrArg some heq.symm)
  · change ((p.after _).tasks i).isSome
    rw [hafter]
    rfl
  · exact .inr (.inl (.inr ⟨i, t, rfl, by rw [hafter]; rfl⟩))

theorem apart_taskInvalid {e : Str} {judgment : Option Judgment}
    (htask : p.tasks i = some (.called t j)) (hj : p.Judged)
    (h : g.Apart (p.after (.taskInvalid i t j e judgment)) keys) :
    (g.tell (.taskInvalid i t j e judgment)).Apart (p.after (.taskInvalid i t j e judgment))
      keys := by
  have ht : Touched g (g.tell (.taskInvalid i t j e judgment)) (g.nodeOf (.task i t))
      (g.freshTaskNode i t) (fun node =>
        { node.onAttempt j fun a => { a with outcome := .failed } with status := .failed }) :=
    touched_onNode rfl
  refine h.attempt (s := .task i t) (n := j) ht blank_freshTaskNode
    kind_freshTaskNode ?_ (fun _ => ⟨rfl, rfl⟩) (fun _ => rfl) (fun _ => rfl) (.inl ?_)
  · change ((p.after _).tasks i).isSome
    rw [show (p.after (.taskInvalid i t j e judgment)).tasks i = some (.next t (j + 1)) from
      Function.update_self _ _ _]
    rfl
  · exact hj.task i t j (by rw [htask]; rfl)

theorem apart_taskCompleted {v : Json} {judgment : Option Judgment}
    (htask : p.tasks i = some (.called t j)) (hj : p.Judged)
    (h : g.Apart (p.after (.taskCompleted i t j judgment v)) keys) :
    (g.tell (.taskCompleted i t j judgment v)).Apart (p.after (.taskCompleted i t j judgment v))
      keys := by
  have hset : Touched g _ (g.nodeOf (.task i t)) (g.freshTaskNode i t) (fun node =>
      { node.onAttempt j fun a => { a with outcome := .passed } with status := .passed }) :=
    touched_onNode rfl
  have ht : Touched g (g.tell (.taskCompleted i t j judgment v)) (g.nodeOf (.task i t))
      (g.freshTaskNode i t) (fun node =>
        { node.onAttempt j fun a => { a with outcome := .passed } with status := .passed }) :=
    ⟨hset.lane, hset.other, hset.here, hset.kept⟩
  refine h.attempt (s := .task i t) (n := j) ht blank_freshTaskNode
    kind_freshTaskNode ?_ (fun _ => ⟨rfl, rfl⟩) (fun _ => rfl) (fun _ => rfl) (.inl ?_)
  · change ((p.after _).tasks i).isSome
    rw [show (p.after (.taskCompleted i t j judgment v)).tasks i = some (.done t) from
      Function.update_self _ _ _]
    rfl
  · exact hj.task i t j (by rw [htask]; rfl)

theorem apart_taskEscalated {old : Tier} {r : Option Str}
    (h : g.Apart (p.after (.taskEscalated i t old j r)) keys) :
    (g.tell (.taskEscalated i t old j r)).Apart (p.after (.taskEscalated i t old j r)) keys := by
  have hhas : ∀ u, (p.after (.taskEscalated i t old j r)).Has (.task i u) := by
    intro u
    change ((p.after _).tasks i).isSome
    rw [show (p.after (.taskEscalated i t old j r)).tasks i = some (.next t j) from
      Function.update_self _ _ _]
    rfl
  have h₁ : (g.onTask i old id).Apart (p.after (.taskEscalated i t old j r)) keys :=
    h.plain (s := .task i old) (touched_onNode rfl) blank_freshTaskNode kind_freshTaskNode
      (hhas old)
      fun _ => ⟨rfl, rfl⟩
  have h₂ : ((g.onTask i old id).onTask i t id).Apart
      (p.after (.taskEscalated i t old j r)) keys :=
    h₁.plain (s := .task i t) (touched_onNode rfl) blank_freshTaskNode kind_freshTaskNode (hhas t)
      fun _ => ⟨rfl, rfl⟩
  let g₂ := (g.onTask i old id).onTask i t id
  have ht : Touched g₂ (g.tell (.taskEscalated i t old j r)) (g₂.nodeOf (.task i old))
      (g₂.freshTaskNode i old) (fun node => { node with status := .escalated }) :=
        touched_onNode rfl
  exact h₂.plain (s := .task i old) ht blank_freshTaskNode kind_freshTaskNode (hhas old)
    fun _ => ⟨rfl, rfl⟩

end Tasks

/-! ### Calls -/

section Calls
variable {c : Call}

/-- The output of a call, told in time or late, makes its attempt or leaves it where it is. -/
theorem apart_callOutput {o : Str} {w : ℕ} (hc : c.Recorded) (hhas : p.Has c.record.key.step)
    (h : g.Apart (p.after (.callOutput c.record o w)) keys) :
    (g.tell (.callOutput c.record o w)).Apart (p.after (.callOutput c.record o w)) keys := by
  let f : Node → Node := fun node =>
    { node.onAttempt (c.record.attempt.getD 1) fun a => { a with live := some o } with
      live := some o }
  obtain ⟨fresh, ⟨hblank, hkind⟩, ht⟩ : ∃ fresh : Node,
      (fresh.Blank ∧ fresh.kind = g.kindOf c.record.key.step) ∧
        Touched g (g.tell (.callOutput c.record o w)) (g.nodeOf c.record.key.step) fresh f :=
    touched_onCall hc f
  refine h.attempt (n := c.record.attempt.getD 1) ht hblank hkind hhas (fun _ => ⟨rfl, rfl⟩)
    (fun _ => rfl) (fun _ => rfl) (.inr (.inr ⟨c.record.key, ?_, ?_⟩))
  · exact Progress.mem_outputs_after.mpr (.inr ⟨_, _, _, rfl, rfl⟩)
  · rw [attempt_number hc]
    rfl

/-- A call's handlers find the node of its step, or make it. -/
theorem onCall_there (hc : c.Recorded) {f : Node → Node}
    (htriage : c.record.key.step = .triage → g.nodes.get? triageId ≠ none)
    (hjudge : ∀ t, c.record.key.step = .judge t → g.nodes.get? (judgeId t) ≠ none) :
    (g.onCall c.record f).nodes.get? (g.nodeOf c.record.key.step) ≠ none := by
  have hexisting : ∀ id, g.nodes.get? id ≠ none → (g.onExisting id f).nodes.get? id ≠ none := by
    intro id hid
    rw [get?_onExisting, if_pos rfl]
    simpa using hid
  have hnode : ∀ id fresh, (g.onNode id fresh f).nodes.get? id ≠ none := by
    intro id fresh
    rw [get?_onNode, if_pos rfl]
    exact Option.some_ne_none _
  rw [hc.key] at htriage hjudge ⊢
  have hop := hc.operation
  have hid := hc.taskId
  have hfor := hc.forTier
  unfold onCall
  unfold Call.key Call.slot at htriage hjudge ⊢
  cases hp : c.payload <;> rw [hp] at hop hid hfor htriage hjudge <;> rw [hop]
  case attempt => exact hexisting _ (htriage rfl)
  case solve goal temperature attempt t =>
    rw [hfor]
    exact hexisting _ (hjudge t rfl)
  case critique goal answer attempt t =>
    rw [hfor]
    exact hexisting _ (hjudge t rfl)
  case work task inputs goal attempt errors =>
    rw [hid]
    exact hnode _ _
  all_goals exact hnode _ _

/-- The attempt of a call that ended is shown in the lane of the call, and no other is touched. -/
theorem apart_callFinished (hc : c.Recorded) (he : p.Expects (.callFinished c.record))
    (hpast : ∀ key ∈ p.finished, p.Past key)
    (htriage : c.record.key.step = .triage → g.nodes.get? triageId ≠ none)
    (hjudge : ∀ t, c.record.key.step = .judge t → g.nodes.get? (judgeId t) ≠ none)
    (h : g.Apart (p.after (.callFinished c.record)) p.finished) :
    (g.tell (.callFinished c.record)).Apart (p.after (.callFinished c.record))
      (p.after (.callFinished c.record)).finished := by
  have hcalling : p.Calling c.record.key := he.allows.1
  let fa : Attempt → Attempt := fun a =>
    { a with
      live := none
      lane := c.record.tier
      outcome :=
        if c.record.outcome = .failed then .error
        else if c.record.operation ≠ .work ∧ c.record.operation ≠ .solve ∧
          c.record.operation ≠ .critique then .passed
        else a.outcome }
  let f : Node → Node := fun node =>
    { node.onAttempt (c.record.attempt.getD 1) fa with
      live := none
      status := if c.record.outcome = .failed then .failed else node.status }
  obtain ⟨fresh, ⟨hblank, hkind⟩, ht⟩ : ∃ fresh : Node,
      (fresh.Blank ∧ fresh.kind = g.kindOf c.record.key.step) ∧
        Touched g (g.tell (.callFinished c.record)) (g.nodeOf c.record.key.step) fresh f :=
    touched_onCall hc f
  have hm : g.Marks (g.tell (.callFinished c.record)) (g.nodeOf c.record.key.step)
      (some c.record.key.slot.number) (g.kindOf c.record.key.step) := by
    refine hkind ▸ ht.marks hblank fun node _ => ⟨rfl, fun n hn => ?_⟩
    rw [← attempt_number hc] at hn
    exact Node.laneOf_onAttempt (fun _ => rfl) fun heq => hn (congrArg some heq.symm)
  have hhas : (p.after (.callFinished c.record)).Has c.record.key.step :=
    he.has (by rintro tasks s ⟨⟩) hcalling.has
  refine h.marks hm hhas (fun n hn => ?_) fun hclear key hkey => ?_
  · obtain rfl := Option.some.inj hn
    exact .inl ⟨c.record.key, Progress.mem_finished_after.mpr (.inr ⟨_, rfl, rfl⟩), rfl⟩
  · rcases Progress.mem_finished_after.mp hkey with hold | ⟨r, heq, rfl⟩
    · rcases hm.lanes (g.nodeOf key.step) key.slot.number with hsame | ⟨hid, hn⟩
      · rw [hsame]
        exact h.shown hclear key hold
      · refine absurd ?_ (hcalling.place_ne (hpast key hold))
        have hstep := nodeOf_inj h.tasks hclear (he.has (by rintro tasks s ⟨⟩) (hpast key hold).has)
          hhas hid
        rw [Key.place, Key.place, hstep, ← Option.some.inj hn]
    · cases heq
      obtain ⟨node', hnode'⟩ :=
        Option.ne_none_iff_exists'.mp (onCall_there hc (f := f) htriage hjudge)
      have htold : (g.tell (.callFinished c.record)).nodes.get? (g.nodeOf c.record.key.step) =
          some node' := hnode'
      obtain ⟨node, rfl, -⟩ := ht.here node' htold
      rw [laneAt, htold, Option.bind_some, ← attempt_number hc]
      exact Node.laneOf_onAttempt_self (fun _ => rfl) fun _ => rfl

end Calls

/-! ### The plan -/

section Plan
variable {tasks : List Task} {rounds : Dict Str ℕ} {instruction : Str}

/-- Nodes that are there stay. -/
theorem kept_foldl_addTask (h : g.nodes.get? id = some node) :
    (tasks.foldl (addTask rounds) g).nodes.get? id = some node := by
  induction tasks generalizing g with
  | nil => exact h
  | cons t tasks ih =>
      refine ih ?_
      rw [touched_addTask]
      split
      · rename_i hid
        rw [← hid, h]
        rfl
      · exact h

/-- Every task has its node. -/
theorem made_foldl_addTask {t : Task} (h : t ∈ tasks) :
    ∃ node, (tasks.foldl (addTask rounds) g).nodes.get? t.id = some node := by
  induction tasks generalizing g with
  | nil => cases h
  | cons u tasks ih =>
      rcases List.mem_cons.mp h with rfl | h
      · refine ⟨(g.nodes.get? t.id).getD (taskNode rounds t),
          kept_foldl_addTask (g := g.addTask rounds t) ?_⟩
        rw [touched_addTask, if_pos rfl]
      · exact ih h

/-- Before there is a plan no attempt is one at a task. -/
theorem begun_ne_task (hr : g.Right late p) (hp : p.Planned) (hplan : p.plan = none)
    (hpast : ∀ key ∈ p.finished, p.Past key) (h : p.Begun n s) : ∀ i t, s ≠ .task i t := by
  rintro i t rfl
  have hnone := hp.unplanned hplan
  rcases h with ⟨key, hkey, hplace⟩ | (htry | ⟨i', t', heq, ht⟩) | ⟨key, hout, hplace⟩
  · have hhas := (hpast key hkey).has
    rw [show key.step = .task i t from congrArg Prod.fst hplace] at hhas
    change (p.tasks i).isSome at hhas
    rw [hnone] at hhas
    cases hhas
  · cases hmain : p.main <;> rw [hmain] at htry <;> cases htry
  · rw [hnone] at ht
    cases ht
  · have hslot := hr.unplanned hplan key hout
    have hstep : key.step = .task i t := congrArg Prod.fst hplace
    obtain ⟨slot, tier⟩ := key
    cases slot with
    | work i' m => exact hslot i' m rfl
    | _ => cases hstep

theorem apart_planCreated (hr : g.Right late p) (hp : p.Planned) (hj : p.Judged)
    (hpast : ∀ key ∈ p.finished, p.Past key) (h : g.Apart p p.finished)
    (he : p.Expects (.planCreated tasks instruction)) :
    (g.tell (.planCreated tasks instruction)).Apart (p.after (.planCreated tasks instruction))
      p.finished := by
  obtain ⟨⟨j, hmain⟩, hfit⟩ : (∃ j, p.main = .drafted j) ∧ PlanFit tasks := he.allows
  have hnone := hp.tasks_eq_none he
  have hplan : p.plan = none := by
    by_contra hne
    have := hp.main (Option.isSome_iff_ne_none.mpr hne)
    simp [hmain] at this
  obtain ⟨rounds, -, hrounds, -⟩ := exists_planRounds hfit.ids hfit.closed hfit.acyclic
  let g₁ := g.onNode planId planNode fun node => { node with status := .passed }
  have htell : g.tell (.planCreated tasks instruction) = tasks.foldl (addTask rounds) g₁ := by
    change g.planCreated tasks = _
    rw [planCreated, hrounds]
  have h₁ : g₁.Apart p p.finished :=
    h.plain (s := .plan) (touched_onNode rfl) ⟨rfl, rfl⟩ rfl trivial fun _ => ⟨rfl, rfl⟩
  have hknown : ∀ i, ((p.after (.planCreated tasks instruction)).tasks i).isSome →
      ∃ t ∈ tasks, t.id = i := by
    intro i hi
    change (startPhases tasks i).isSome at hi
    simpa [startPhases, List.find?_isSome] using hi
  have hlane : ∀ t ∈ tasks,
      (g.tell (.planCreated tasks instruction)).taskLane.get? t.id = some t.preferredTier :=
    fun t ht => htell ▸ lane_foldl_addTask hfit.ids ht
  -- the steps so far are none of a task, so their nodes stay theirs
  have hnode : ∀ s, (∀ i t, s ≠ .task i t) →
      (g.tell (.planCreated tasks instruction)).nodeOf s = g₁.nodeOf s ∧
        (g.tell (.planCreated tasks instruction)).kindOf s = g₁.kindOf s := by
    intro s hs
    cases s with
    | task i t => exact absurd rfl (hs i t)
    | _ => exact ⟨rfl, rfl⟩
  have hother : ∀ s, p.Has s → ∀ i t, s ≠ .task i t := by
    rintro s hs i t rfl
    change (p.tasks i).isSome at hs
    rw [hnone] at hs
    cases hs
  refine ⟨⟨fun i hi => ?_, fun i hi => ?_, fun i hi => ?_⟩, fun k n hne => ?_,
    fun hclear key hkey => ?_, fun k kind hkind => ?_⟩
  · obtain ⟨t, ht, rfl⟩ := hknown i hi
    exact hfit.names t ht
  · obtain ⟨t, ht, rfl⟩ := hknown i hi
    exact ⟨_, hlane t ht⟩
  · obtain ⟨t, ht, rfl⟩ := hknown i hi
    obtain ⟨node, hget⟩ : ∃ node, (tasks.foldl (addTask rounds) g₁).nodes.get? t.id = some node :=
      made_foldl_addTask ht
    rw [kindAt, htell, hget]
    exact Option.some_ne_none _
  · obtain ⟨t, hlaneAt⟩ := Option.ne_none_iff_exists'.mp hne
    obtain ⟨node, hget, hshows⟩ := Option.bind_eq_some_iff.mp hlaneAt
    rw [htell] at hget
    rcases get?_foldl_addTask hget with hold | ⟨u, hu, rfl, rfl⟩
    · have hne₁ : g₁.laneAt k n ≠ none := by
        rw [laneAt, hold, Option.bind_some, hshows]
        exact Option.some_ne_none _
      obtain ⟨s, hs, hbegun⟩ := (h₁.begun k n hne₁).resolve_left he.1
      rcases hbegun.after hp hj he with hbegun' | hstop
      · exact .inr ⟨s, by rw [(hnode s (begun_ne_task hr hp hplan hpast hbegun)).1, hs], hbegun'⟩
      · exact .inl hstop
    · simp [Node.laneOf, taskNode] at hshows
  · have hclear₁ : p.Clear := by
      intro i hi
      rw [hnone] at hi
      cases hi
    have hshown := h₁.shown hclear₁ key hkey
    obtain ⟨node, hget, hshows⟩ := Option.bind_eq_some_iff.mp hshown
    rw [(hnode _ (hother _ (hpast key hkey).has)).1, laneAt, htell, kept_foldl_addTask hget]
    exact hshows
  · obtain ⟨node, hget, rfl⟩ := Option.map_eq_some_iff.mp hkind
    rw [htell] at hget
    rcases get?_foldl_addTask hget with hold | ⟨u, hu, rfl, rfl⟩
    · obtain ⟨s, hs, hid, hk⟩ := h₁.kinds k node.kind (by rw [kindAt, hold]; rfl)
      have hsame := hnode s (hother s hs)
      refine ⟨s, ?_, hsame.1.trans hid, hsame.2.trans hk⟩
      cases s with
      | task i t => exact absurd rfl (hother _ hs i t)
      | _ => trivial
    · refine ⟨.task u.id u.preferredTier, ?_, ?_, ?_⟩
      · change (startPhases tasks u.id).isSome
        rw [Progress.startPhases_eq hfit.ids hu]
        rfl
      · simp [nodeOf, taskNodeId, hlane u hu]
      · simp [kindOf, hlane u hu, taskNode]

end Plan

/-! ### Every event -/

/-- The output of a call takes no node away. -/
theorem kept_callOutput {r : CallRecord} {o : Str} {w : ℕ}
    (hd : (EventData.callOutput r o w).Proper)
    (h : g.nodes.get? id ≠ none) : (g.tell (.callOutput r o w)).nodes.get? id ≠ none := by
  obtain ⟨c, hc, rfl⟩ := hd
  obtain ⟨node, hnode⟩ := Option.ne_none_iff_exists'.mp h
  obtain ⟨fresh, -, ht⟩ := touched_onCall hc (g := g) fun node =>
    { node.onAttempt (c.record.attempt.getD 1) fun a => { a with live := some o } with
      live := some o }
  refine Option.ne_none_iff_exists'.mpr ?_
  by_cases hid : id = g.nodeOf c.record.key.step
  · exact ⟨_, hid ▸ ht.kept node (hid ▸ hnode)⟩
  · exact ⟨node, (ht.other _ hid).trans hnode⟩

/-- The extraction has its node while it is tried. -/
theorem extracting_tell (h : p.main = .extracting → g.nodes.get? triageId ≠ none)
    (hp : p.Planned) (hd : d.Proper) (he : p.Expects d)
    (hmain : (p.after d).main = .extracting) : (g.tell d).nodes.get? triageId ≠ none := by
  have htask : ∀ i, p.main = .extracting → d.teller ≠ .task i := by
    intro i hm hteller
    obtain ⟨ph, hph, -⟩ := he.task hteller
    have hsome : p.plan.isSome := by
      by_contra hne
      rw [hp.unplanned (by simpa using hne) i] at hph
      cases hph
    rcases hp.main hsome with h | h | h | h | h <;> rw [hm] at h <;> cases h
  cases d with
  | localAttempt =>
      change (g.onNode triageId triageNode (Node.onAttempt 1 id)).nodes.get? triageId ≠ none
      rw [get?_onNode, if_pos rfl]
      exact Option.some_ne_none _
  | callOutput r o w => exact kept_callOutput hd (h hmain)
  | callFinished r =>
      exfalso
      change p.main.finish r.slot = _ at hmain
      have hc : p.Calling r.key := he.allows.1
      have hteller : ∀ i n, r.slot = .work i n → p.main ≠ .extracting := by
        intro i n hs hm
        exact htask i hm (by simp [EventData.teller, hs])
      simp only [Progress.Calling, CallRecord.key] at hc
      cases hs : r.slot <;> rw [hs] at hc hmain
      case work i n =>
        exact hteller i n hs (by revert hmain; cases p.main <;> simp [MainPhase.finish])
      case judge t n => obtain ⟨k, -, hc | hc⟩ := hc <;> rw [hc] at hmain <;> cases hmain
      case plan n =>
        obtain ⟨k, -, hc⟩ := hc
        rw [hc] at hmain
        cases hmain
      all_goals
        rw [hc] at hmain
        cases hmain
  | localCritique t =>
      obtain ⟨k, hk⟩ : ∃ k, p.main = .judging t (k + 1) := he.allows
      change p.main.critique = _ at hmain
      rw [hk] at hmain
      cases hmain
  | localVerdict | escalated =>
      change (if _ then _ else _) = _ at hmain
      split at hmain <;> cases hmain
  | taskEscalated | taskStarted | taskInvalid | taskCompleted => exact absurd rfl (htask _ hmain)
  | providerNotice =>
      have hopened : p.main = .opened := he.allows
      change p.main = _ at hmain
      rw [hopened] at hmain
      cases hmain
  | _ => cases hmain

theorem get?_stop_eq (status : GraphStatus) (ms : Metrics) (id : Str) :
    (g.stop status ms).nodes.get? id = (g.nodes.get? id).map Node.stop :=
  Dict.get?_mapValues _ _ _

theorem laneAt_stop (status : GraphStatus) (ms : Metrics) (id : Str) (n : ℕ) :
    (g.stop status ms).laneAt id n = g.laneAt id n := by
  have hnode : ∀ node, (Node.stop node).laneOf n = node.laneOf n := by
    intro node
    simp only [Node.laneOf, Node.stop, List.find?_map, Option.map_map]
    congr 1
    · ext a
      simp only [Function.comp_apply]
      split <;> rfl
    · congr 1
      ext a
      simp only [Function.comp_apply]
      split <;> rfl
  rw [laneAt, laneAt, get?_stop_eq, Option.bind_map]
  congr 1
  ext node
  rw [Function.comp_apply, hnode]

theorem kindAt_stop (status : GraphStatus) (ms : Metrics) (id : Str) :
    (g.stop status ms).kindAt id = g.kindAt id := by
  rw [kindAt, kindAt, get?_stop_eq, Option.map_map]
  rfl

/-- **An expected event keeps the calls apart.** -/
theorem Apart.tell (h : g.Apart p p.finished) (hr : g.Right late p) (hp : p.Planned) (hj : p.Judged)
    (hpast : ∀ key ∈ p.finished, p.Past key)
    (hex : p.main = .extracting → g.nodes.get? triageId ≠ none) (hd : d.Proper)
    (he : p.Expects d) : (g.tell d).Apart (p.after d) (p.after d).finished := by
  have hpast' : ∀ key ∈ p.finished, (p.after d).Past key := fun key hkey =>
    (hpast key hkey).after hp he
  by_cases hplan : ∃ tasks s, d = .planCreated tasks s
  · obtain ⟨tasks, s, rfl⟩ := hplan
    exact apart_planCreated hr hp hj hpast h he
  have h' := h.moved hp hj he fun tasks s hs => hplan ⟨tasks, s, hs⟩
  cases d with
  | planCreated tasks s => exact absurd ⟨tasks, s, rfl⟩ hplan
  | runStarted | providerNotice => exact h'.same rfl (fun _ _ => rfl) fun _ => rfl
  | localAttempt =>
      exact h'.attempt (s := .triage) (n := 1) (touched_onNode rfl) ⟨rfl, rfl⟩ rfl trivial
        (fun _ => ⟨rfl, rfl⟩) (fun _ => rfl) (fun _ => rfl) (.inr (.inl (.inl rfl)))
  | extractFailed =>
      exact h'.plain (s := .triage) (touched_onExisting rfl triageNode) ⟨rfl, rfl⟩ rfl trivial
        fun _ => ⟨rfl, rfl⟩
  | localSkipped t =>
      exact h'.plain (s := .judge t) (touched_onNode rfl) ⟨rfl, rfl⟩ rfl trivial
        fun _ => ⟨rfl, rfl⟩
  | localSolve t =>
      exact h'.plain (s := .judge t) (touched_onNode rfl) ⟨rfl, rfl⟩ rfl trivial
        fun _ => ⟨rfl, rfl⟩
  | localSample t n a =>
      obtain ⟨k, rfl, hmain⟩ : ∃ k, n = k + 1 ∧ p.main = .sampled t k := he.allows
      refine h'.attempt (s := .judge t) (n := k + 1)
        (touched_onExisting rfl (judgeNode t .running)) ⟨rfl, rfl⟩ rfl trivial
        (fun _ => ⟨rfl, rfl⟩) (fun _ => rfl) (fun _ => rfl) (.inl ?_)
      exact hj.main _ (by rw [hmain]; rfl)
  | localCritique => exact apart_localCritique hr he h' hpast'
  | localVerdict => exact apart_localVerdict hr hj he h'
  | localAccepted => exact apart_localAccepted h'
  | escalated => exact apart_escalated h'
  | answering t =>
      have ht : Touched g (g.tell (.answering t)) answerId (g.answerNode true)
          (fun node => { node with status := .running }) := touched_onNode rfl
      exact h'.plain (s := .answer) ht ⟨rfl, rfl⟩ rfl trivial fun _ => ⟨rfl, rfl⟩
  | synthesizing t =>
      have ht : Touched g (g.tell (.synthesizing t)) answerId (g.answerNode false)
          (fun node => { node with status := .running }) := touched_onNode rfl
      exact h'.plain (s := .answer) ht ⟨rfl, rfl⟩ rfl trivial fun _ => ⟨rfl, rfl⟩
  | planInvalid n e =>
      obtain ⟨k, rfl, hmain⟩ : ∃ k, n = k + 1 ∧ p.main = .drafted k := he.allows
      refine h'.attempt (s := .plan) (n := k + 1) (touched_onNode rfl) ⟨rfl, rfl⟩ rfl trivial
        (fun _ => ⟨rfl, rfl⟩) (fun _ => rfl) (fun _ => rfl) (.inl ?_)
      exact hj.main _ (by rw [hmain]; rfl)
  | taskEscalated => exact apart_taskEscalated h'
  | taskStarted => exact apart_taskStarted h' hpast'
  | taskInvalid i t n =>
      have htask : p.tasks i = some (.called t n) := he.allows
      exact apart_taskInvalid htask hj h'
  | taskCompleted i t n =>
      have htask : p.tasks i = some (.called t n) := he.allows
      exact apart_taskCompleted htask hj h'
  | callOutput r =>
      obtain ⟨c, hc, rfl⟩ := hd
      exact apart_callOutput hc he.allows.1.has h'
  | callFinished r =>
      obtain ⟨c, hc, rfl⟩ := hd
      have hcalling : p.Calling c.record.key := he.allows.1
      refine apart_callFinished hc he hpast (fun hs => hex ?_) (fun t hs => ?_) h'
      · cases hkey : c.record.key with
        | mk slot tier =>
            rw [hkey] at hs hcalling
            cases slot with
            | extract => exact hcalling
            | _ => cases hs
      · cases hkey : c.record.key with
        | mk slot tier =>
            rw [hkey] at hs hcalling
            cases slot with
            | judge t' n =>
                cases hs
                obtain ⟨k, -, hmain | hmain⟩ := hcalling
                · exact hr.judging.ne_none (n := k) (by rw [hmain]; rfl)
                · exact hr.judging.ne_none (n := k) (by rw [hmain]; rfl)
            | _ => cases hs
  | runCompleted ms =>
      have hset : Touched { g with status := .completed, metrics := some ms, route := ms.route } _
          answerId (g.answerNode true) (fun node => { node with status := .passed }) :=
        touched_onExisting rfl _
      have ht : Touched g (g.tell (.runCompleted ms)) answerId (g.answerNode true)
          (fun node => { node with status := .passed }) :=
        ⟨hset.lane, hset.other, hset.here, hset.kept⟩
      exact h'.plain (s := .answer) ht ⟨rfl, rfl⟩ rfl trivial fun _ => ⟨rfl, rfl⟩
  | runFailed | runCancelled =>
      exact h'.same rfl (laneAt_stop _ _) (kindAt_stop _ _)

/-- **A late output keeps the calls apart.** -/
theorem Apart.tell_late (h : g.Apart p keys) (hd : d.Proper)
    (hmet : ∀ key ∈ p.outputs, p.Met key) (he : p.Late d) : (g.tell d).Apart p keys := by
  have hafter := he.after
  obtain ⟨r, o, w, rfl, hout⟩ := he
  obtain ⟨c, hc, rfl⟩ := hd
  have hapart := apart_callOutput (g := g) (o := o) (w := w) hc (hmet _ hout).has (by rwa [hafter])
  rwa [hafter] at hapart

theorem apart_empty : ({} : Graph).Apart {} [] where
  tasks := ⟨(fun i hi => by cases hi), (fun i hi => by cases hi), (fun i hi => by cases hi)⟩
  begun id n h := absurd rfl h
  shown _ key hkey := by cases hkey
  kinds id kind h := by cases h

/-- **The graph of an accepted sequence of events keeps the calls apart.** By induction on the
events. -/
theorem apart_of_accepts {es : List RelayEvent}
    (h : Progress.Accepts late (es.map RelayEvent.data))
    (hes : ∀ e ∈ es, e.data.Proper) :
    (ofEvents es).Apart (.of (es.map RelayEvent.data))
      (Progress.of (es.map RelayEvent.data)).finished ∧
      ((Progress.of (es.map RelayEvent.data)).main = .extracting →
        (ofEvents es).nodes.get? triageId ≠ none) := by
  induction es using List.reverseRecOn with
  | nil => exact ⟨apart_empty, by rintro ⟨⟩⟩
  | append_singleton es e ih =>
      have hes' : ∀ e' ∈ es, e'.data.Proper := fun e' he' => hes e' (by simp [he'])
      rw [List.map_append, List.map_singleton] at h ⊢
      obtain ⟨h, he⟩ := Progress.accepts_concat.mp h
      obtain ⟨hapart, hex⟩ := ih h hes'
      rw [Progress.of_concat, ofEvents_concat]
      have hproper := hes e (by simp)
      rcases he with he | ⟨-, he⟩
      swap
      · rw [he.after]
        refine ⟨hapart.tell_late hproper h.met he, fun hmain => ?_⟩
        obtain ⟨r, o, w, hdata, -⟩ := he
        rw [hdata] at hproper ⊢
        exact kept_callOutput hproper (hex hmain)
      exact ⟨hapart.tell (right_of_accepts h hes') h.planned h.judged h.places.1 hex hproper he,
        fun hmain => extracting_tell hex h.planned hproper he hmain⟩

end Graph

end HorizonRelay
