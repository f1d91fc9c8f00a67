import HorizonRelay.Events
import HorizonRelay.Lib.Intervals
import Mathlib.Data.Set.Card

/-!
# What a run delegated

The evaluation of a run's calls: which subtasks were done by which tier, and how long at
least two of them ran at the same time.  The time is found by sweeping over the starts and
ends of the calls in order; `delegation_exact` says that this measures what it means.

## Main definitions

* `CallEntry`, `work` — the records of calls as metrics have them, and those of subtasks.
* `sweep`, `delegation` — the sweep, and the whole evaluation.
* `checkExpectations` — what a test case demanded and did not get.

## Main results

* `sweep_eq` — what the sweep adds up.
* `delegation_exact` — what `delegation` returns.
-/

namespace HorizonRelay

open Py Intervals

/-! ## The evaluation -/

/-- The record of a call, as far as the evaluation reads it; `none` is Python's `None`. -/
structure CallEntry : Type where
  operation : Str
  tier : Str
  taskId : Option Str
  startedMs : Option ℤ
  elapsedMs : Option ℤ
  deriving DecidableEq

namespace CallEntry

/-- Whether a record is one of a subtask. -/
def isWork (c : CallEntry) : Bool := c.operation = "work".toList && c.startedMs.isSome

/-- `c["started_ms"]`, of a subtask's record. -/
def started (c : CallEntry) : ℤ := c.startedMs.getD 0

/-- `c["elapsed_ms"] or 0`. -/
def elapsed (c : CallEntry) : ℤ := c.elapsedMs.getD 0

/-- A record takes no negative time. -/
def Elapses (c : CallEntry) : Prop := 0 ≤ c.elapsed

/-- The milliseconds a call takes, by its record. -/
def interval (c : CallEntry) (h : c.Elapses) : Interval where
  start := c.started
  stop := c.started + c.elapsed
  le := le_add_of_nonneg_right h

end CallEntry

/-- The records of subtasks. -/
def work (calls : List CallEntry) : List CallEntry := calls.filter CallEntry.isWork

/-- The order of Python's pairs. -/
def EdgeLe (a b : ℤ × ℤ) : Prop := a.1 < b.1 ∨ a.1 = b.1 ∧ a.2 ≤ b.2

instance (a b : ℤ × ℤ) : Decidable (EdgeLe a b) := inferInstanceAs (Decidable (_ ∨ _))

/-- The starts and ends of calls, in order. -/
def workEdges (work : List CallEntry) : List (ℤ × ℤ) :=
  List.insertionSort EdgeLe
    ((work.map fun c : CallEntry => (c.started, 1)) ++
      work.map fun c : CallEntry => (c.started + c.elapsed, -1))

/-- The variables of the sweep. -/
structure Sweep : Type where
  running : ℤ := 0
  concurrent : ℤ := 0
  previous : ℤ

namespace Sweep

/-- One edge of the sweep. -/
def edge (s : Sweep) (e : ℤ × ℤ) : Sweep where
  running := s.running + e.2
  concurrent := if s.running > 1 then s.concurrent + (e.1 - s.previous) else s.concurrent
  previous := e.1

end Sweep

/-- The sweep over sorted edges. -/
def sweep (edges : List (ℤ × ℤ)) : Sweep :=
  edges.foldl Sweep.edge { previous := (edges.head?.map Prod.fst).getD 0 }

/-- Local subtasks, cloud subtasks, and the milliseconds in which two or more ran at the same
time. -/
structure Delegation : Type where
  localSubtasks : ℕ
  cloudSubtasks : ℕ
  parallelMs : ℤ
  deriving DecidableEq

/-- `"cloud"`. -/
def cloudName : Str := "cloud".toList

/-- The evaluation of a run's calls. -/
def delegation (calls : List CallEntry) : Delegation :=
  let work := work calls
  let tasks := Dict.ofList (work.map fun c => (c.taskId, c.tier))
  let localSubtasks := tasks.values.countP fun tier => tier ≠ cloudName
  { localSubtasks
    cloudSubtasks := tasks.keys.length - localSubtasks
    parallelMs := (sweep (workEdges work)).concurrent }

/-- What a test case demands of the run itself. -/
structure Expects : Type where
  localSubtasksAtLeast : Option ℤ := none
  cloudSubtasksAtMost : Option ℤ := none
  parallelWork : Bool := false

/-- What the case demanded of the run and did not get. -/
def checkExpectations (expects : Expects) (result : Delegation) : List Str :=
  (match expects.localSubtasksAtLeast with
    | some least =>
        if (result.localSubtasks : ℤ) < least then
          ["delegated ".toList ++ Str.ofNat result.localSubtasks ++
            " subtasks to local models, expected at least ".toList ++ Str.ofInt least]
        else []
    | none => []) ++
  (match expects.cloudSubtasksAtMost with
    | some most =>
        if (result.cloudSubtasks : ℤ) > most then
          ["kept ".toList ++ Str.ofNat result.cloudSubtasks ++
            " subtasks on the cloud, expected at most ".toList ++ Str.ofInt most]
        else []
    | none => []) ++
  if expects.parallelWork && decide (result.parallelMs ≤ 0) then
    ["no two subtasks ever ran at the same time".toList]
  else []

/-! ## The sweep -/

variable {ws : List CallEntry} {edges : List (ℤ × ℤ)}

/-- What one edge adds is the time since the edge before it, when more than one call runs. -/
theorem Sweep.edge_concurrent (s : Sweep) (e : ℤ × ℤ) (h : s.previous ≤ e.1) :
    (s.edge e).concurrent =
      s.concurrent + ((Finset.Ico s.previous e.1).filter fun _ => 1 < s.running).card := by
  by_cases hr : 1 < s.running
  · simp [Sweep.edge, hr]
    omega
  · simp [Sweep.edge, hr]

/-- The last of the moments of sorted edges is a latest one. -/
theorem le_last {b x : ℤ} (h : edges.Pairwise fun d e => d.1 ≤ e.1) (hne : edges ≠ [])
    (hb : ((edges.map Prod.fst).getLast?).getD x = b) : ∀ e ∈ edges, e.1 ≤ b := by
  obtain ⟨init, last, rfl⟩ := (List.eq_nil_or_concat' edges).resolve_left hne
  obtain rfl : last.1 = b := by simpa using hb
  intro e he
  rcases List.mem_append.mp he with he | he
  · exact (List.pairwise_append.mp h).2.2 e he last (by simp)
  · rw [List.mem_singleton.mp he]

/-- From any state on, the sweep adds the moments at which the counter is above one. -/
theorem Sweep.foldl_edge {b : ℤ} : ∀ {edges : List (ℤ × ℤ)} {s : Sweep},
    edges.Pairwise (fun d e => d.1 ≤ e.1) → (∀ e ∈ edges, s.previous ≤ e.1) →
      ((edges.map Prod.fst).getLast?).getD s.previous = b →
      (edges.foldl Sweep.edge s).concurrent = s.concurrent +
        ((Finset.Ico s.previous b).filter fun m => 1 < s.running + level edges m).card
  | [], s, _, _, hb => by
      obtain rfl : s.previous = b := hb
      simp
  | e :: edges, s, hsorted, hprev, hb => by
      have hle : s.previous ≤ e.1 := hprev e (by simp)
      have heb : e.1 ≤ b := le_last hsorted (by simp) hb e (by simp)
      have hlast : ((edges.map Prod.fst).getLast?).getD (s.edge e).previous = b := by
        cases edges with
        | nil => simpa [Sweep.edge] using hb
        | cons d edges => simpa [List.getLast?_cons] using hb
      rw [List.pairwise_cons] at hsorted
      rw [List.foldl_cons, foldl_edge hsorted.2 hsorted.1 hlast, Sweep.edge_concurrent s e hle]
      have hsplit := Finset.Ico_union_Ico_eq_Ico hle heb
      rw [← hsplit, Finset.filter_union, Finset.card_union_of_disjoint
        (Finset.disjoint_filter_filter (Finset.Ico_disjoint_Ico_consecutive _ _ _))]
      have hbefore : (Finset.Ico s.previous e.1).filter
          (fun m => 1 < s.running + level (e :: edges) m) =
          (Finset.Ico s.previous e.1).filter fun _ => 1 < s.running := by
        refine Finset.filter_congr fun m hm => ?_
        have hm := (Finset.mem_Ico.mp hm).2
        have hzero : level (e :: edges) m = 0 := by
          refine level_of_lt fun d hd => ?_
          rcases List.mem_cons.mp hd with rfl | hd
          · exact hm
          · exact lt_of_lt_of_le hm (hsorted.1 d hd)
        rw [hzero, add_zero]
      have hafter : (Finset.Ico e.1 b).filter
          (fun m => 1 < s.running + level (e :: edges) m) =
          (Finset.Ico e.1 b).filter fun m => 1 < (s.edge e).running + level edges m := by
        refine Finset.filter_congr fun m hm => ?_
        rw [level_cons, if_pos (Finset.mem_Ico.mp hm).1, Sweep.edge]
        simp only [add_assoc]
      rw [hbefore, hafter]
      push_cast
      simp only [Sweep.edge, add_assoc]

/-! ## Edges of calls -/

/-- A millisecond in which a call runs, by its record. -/
def CallEntry.Covers (c : CallEntry) (m : ℤ) : Prop := c.started ≤ m ∧ m < c.started + c.elapsed

instance (c : CallEntry) (m : ℤ) : Decidable (c.Covers m) := inferInstanceAs (Decidable (_ ∧ _))

/-- The milliseconds in which at least two calls run. -/
def parallelMoments (ws : List CallEntry) : Set ℤ := {m | 2 ≤ ws.countP fun c => c.Covers m}

/-- The intervals of calls. -/
def intervals (ws : List CallEntry) (h : ∀ c ∈ ws, c.Elapses) : List Interval :=
  ws.pmap CallEntry.interval h

theorem cover_intervals (h : ∀ c ∈ ws, c.Elapses) (m : ℤ) :
    cover (intervals ws h) m = ws.countP fun c => c.Covers m := by
  induction ws with
  | nil => rfl
  | cons c ws ih =>
      have ih := ih fun d hd => h d (by simp [hd])
      simp only [intervals, cover] at ih
      simp only [intervals, cover, List.pmap_cons, List.countP_cons, ih]
      rfl

theorem crowded_intervals (h : ∀ c ∈ ws, c.Elapses) :
    crowded (intervals ws h) = parallelMoments ws := by
  simp only [crowded, parallelMoments, cover_intervals]

instance : Std.Total EdgeLe where
  total a b := by
    simp only [EdgeLe]
    omega

instance : IsTrans (ℤ × ℤ) EdgeLe where
  trans a b c := by
    simp only [EdgeLe]
    omega

theorem workEdges_perm (h : ∀ c ∈ ws, c.Elapses) :
    (workEdges ws).Perm (Intervals.edges (intervals ws h)) := by
  refine (List.perm_insertionSort _ _).trans (List.Perm.of_eq ?_)
  simp [Intervals.edges, intervals, List.map_pmap, CallEntry.interval]

/-- Later edges come later; the order among those of one moment does not matter. -/
theorem workEdges_sorted (ws : List CallEntry) :
    (workEdges ws).Pairwise fun d e => d.1 ≤ e.1 := by
  refine (List.pairwise_insertionSort EdgeLe _).imp fun {d e} h => ?_
  simp only [EdgeLe] at h
  omega

/-- **The sweep measures the moments the counter is above one.** -/
theorem sweep_eq (h : ∀ c ∈ ws, c.Elapses) :
    (parallelMoments ws).Finite ∧
      (sweep (workEdges ws)).concurrent = (parallelMoments ws).ncard := by
  have hperm := workEdges_perm h
  have hsorted := workEdges_sorted ws
  rw [← crowded_intervals h]
  cases hedges : workEdges ws with
  | nil =>
      have hnil : Intervals.edges (intervals ws h) = [] := by
        rw [hedges] at hperm
        exact List.nil_perm.mp hperm
      have hempty : crowded (intervals ws h) = ∅ := by
        rw [crowded_eq_empty_iff, edges_eq_nil_iff.mp hnil]
        exact List.Pairwise.nil
      simp [hempty, sweep]
  | cons e edges =>
      rw [hedges] at hperm hsorted
      obtain ⟨b, hb⟩ : ∃ b, (((e :: edges).map Prod.fst).getLast?).getD e.1 = b := ⟨_, rfl⟩
      have hfirst : ∀ d ∈ e :: edges, e.1 ≤ d.1 := by
        intro d hd
        rcases List.mem_cons.mp hd with rfl | hd
        · exact le_rfl
        · exact (List.pairwise_cons.mp hsorted).1 d hd
      have hlast := le_last hsorted (by simp) hb
      have hcrowded := @crowded_eq_filter (intervals ws h) e.1 b
        (fun d hd => hfirst d (hperm.mem_iff.mpr hd)) fun d hd => hlast d (hperm.mem_iff.mpr hd)
      have hsweep := Sweep.foldl_edge (s := { previous := e.1 }) hsorted hfirst hb
      rw [hcrowded, Set.ncard_coe_finset]
      refine ⟨Finset.finite_toSet _, ?_⟩
      simp only [sweep, List.head?_cons, Option.map_some, Option.getD_some, hsweep, zero_add,
        level_perm hperm]

/-! ## The whole evaluation -/

/-- The tier of the last record of a task. -/
def lastTier (ws : List CallEntry) (id : Option Str) : Option Str :=
  (ws.reverse.find? fun c => c.taskId = id).map CallEntry.tier

/-- The tasks of some records, each once. -/
def taskIds (ws : List CallEntry) : List (Option Str) := (ws.map CallEntry.taskId).dedup

theorem get?_tasks (ws : List CallEntry) (id : Option Str) :
    (Dict.ofList (ws.map fun c => (c.taskId, c.tier))).get? id = lastTier ws id := by
  rw [Dict.get?_ofList, ← List.map_reverse, Dict.lookup_map, lastTier]

theorem keys_tasks_perm (ws : List CallEntry) :
    (Dict.ofList (ws.map fun c => (c.taskId, c.tier))).keys.Perm (taskIds ws) := by
  refine (Dict.keys_ofList_perm _).trans (List.Perm.of_eq ?_)
  rw [taskIds, List.map_map]
  rfl

theorem lastTier_isSome {id : Option Str} (h : id ∈ taskIds ws) :
    ∃ tier, lastTier ws id = some tier := by
  rw [← get?_tasks]
  exact Dict.mem_keys_iff.mp ((keys_tasks_perm ws).mem_iff.mpr h)

/-- The local subtasks are those whose last record is not the cloud's. -/
theorem localSubtasks_eq (calls : List CallEntry) :
    (delegation calls).localSubtasks = (taskIds (work calls)).countP fun id =>
      lastTier (work calls) id ≠ some cloudName := by
  rw [delegation, Dict.countP_values, (keys_tasks_perm _).countP_eq]
  refine List.countP_congr fun id hid => ?_
  obtain ⟨tier, ht⟩ := lastTier_isSome hid
  simp [get?_tasks, ht]

/-- The other subtasks are the cloud's. -/
theorem cloudSubtasks_eq (calls : List CallEntry) :
    (delegation calls).cloudSubtasks = (taskIds (work calls)).countP fun id =>
      lastTier (work calls) id = some cloudName := by
  have hall := List.length_eq_countP_add_countP
    (fun id => decide (lastTier (work calls) id = some cloudName))
    (l := taskIds (work calls))
  have hlocal := localSubtasks_eq calls
  have hkeys := (keys_tasks_perm (work calls)).length_eq
  have hcloud : (delegation calls).cloudSubtasks =
      (Dict.ofList ((work calls).map fun c => (c.taskId, c.tier))).keys.length -
        (delegation calls).localSubtasks := rfl
  rw [hcloud, hlocal, hkeys, hall]
  simp

/-- **What the evaluation of a run's calls returns**: the tasks by the tier of their last
record, and the number of milliseconds covered by at least two of the calls. -/
theorem delegation_exact (calls : List CallEntry)
    (h : ∀ c ∈ work calls, ∀ ms, c.elapsedMs = some ms → 0 ≤ ms) :
    (parallelMoments (work calls)).Finite ∧
      (delegation calls).parallelMs = (parallelMoments (work calls)).ncard ∧
      (delegation calls).localSubtasks + (delegation calls).cloudSubtasks =
        (taskIds (work calls)).length ∧
      (delegation calls).localSubtasks =
        (taskIds (work calls)).countP (fun id => lastTier (work calls) id ≠ some cloudName) ∧
      (delegation calls).cloudSubtasks =
        (taskIds (work calls)).countP fun id => lastTier (work calls) id = some cloudName := by
  have helapses : ∀ c ∈ work calls, c.Elapses := by
    intro c hc
    unfold CallEntry.Elapses CallEntry.elapsed
    cases he : c.elapsedMs with
    | none => simp
    | some ms => simpa using h c hc ms he
  obtain ⟨hfin, hcount⟩ := sweep_eq helapses
  refine ⟨hfin, hcount, ?_, localSubtasks_eq calls, cloudSubtasks_eq calls⟩
  rw [localSubtasks_eq, cloudSubtasks_eq, List.length_eq_countP_add_countP
    (fun id => decide (lastTier (work calls) id = some cloudName)), add_comm]
  simp

/-- The record of a subtask's call on a tier. -/
def workCall (id tier : String) (started : ℤ) (elapsed : Option ℤ) : CallEntry :=
  ⟨"work".toList, tier.toList, some id.toList, some started, elapsed⟩

/-- A task retried on the cloud while another one runs, and a call that has not ended. -/
def retriedCalls : List CallEntry :=
  [workCall "a" "local" 0 (some 3), workCall "b" "mid" 2 (some 5), workCall "a" "cloud" 3 (some 2),
    workCall "c" "local" 4 none]

theorem delegation_exact_retried :
    delegation retriedCalls = ⟨2, 1, 3⟩ ∧ (parallelMoments (work retriedCalls)).ncard = 3 := by
  have hval : delegation retriedCalls = ⟨2, 1, 3⟩ := by decide +kernel
  have h := (delegation_exact retriedCalls (by decide +kernel)).2.1
  rw [hval] at h
  have hcard : (3 : ℤ) = (parallelMoments (work retriedCalls)).ncard := h
  exact ⟨hval, by exact_mod_cast hcard.symm⟩

end HorizonRelay
