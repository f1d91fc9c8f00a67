import HorizonRelay.Engine.Sound
import HorizonRelay.Observe.Protocol

/-!
# What observers have seen

The log of a run, read as the events handed out, as the calls requested and as the
callbacks in progress, and what holds of it together with the event lock: callbacks come
one at a time, in the order of their numbers.

## Main definitions

* `handed`, `told`, `requested`, `inProgress` — readings of a log.
* `Queue` — the event lock and the numbers of those who wait for it.

## Main results

* `Queue.enqueue`, `Queue.hold`, `Queue.hand`, `Queue.emitted`, `Queue.release` — a turn at
  the lock.
-/

namespace HorizonRelay

open Py Coop

/-! ## Readings of a log -/

/-- The event an entry hands out. -/
def Entry.event? : Entry → Option RelayEvent
  | .handed e => some e
  | _ => none

/-- The call an entry requests. -/
def Entry.call? : Entry → Option ℕ
  | .requested k => some k
  | _ => none

/-- The events handed to the progress callback, in order. -/
def handed (log : List Entry) : List RelayEvent := log.filterMap Entry.event?

/-- What they told. -/
def told (log : List Entry) : List EventData := (handed log).map RelayEvent.data

/-- The calls the provider was asked to complete, in order. -/
def requested (log : List Entry) : List ℕ := log.filterMap Entry.call?

/-- The callbacks in progress after an entry. -/
def Entry.turn (open_ : List ℕ) : Entry → List ℕ
  | .handed e => open_ ++ [e.seq]
  | .emitted n => open_.erase n
  | _ => open_

/-- The callbacks in progress, by the numbers of their events. -/
def inProgress (log : List Entry) : List ℕ := log.foldl Entry.turn []

section Log
variable (log : List Entry) (entry : Entry)

@[simp] theorem inProgress_concat :
    inProgress (log ++ [entry]) = entry.turn (inProgress log) := by
  rw [inProgress, List.foldl_append]
  rfl

@[simp] theorem handed_concat_handed (e : RelayEvent) :
    handed (log ++ [.handed e]) = handed log ++ [e] := by
  simp [handed, List.filterMap_append, Entry.event?]

@[simp] theorem handed_concat_emitted (n : ℕ) : handed (log ++ [.emitted n]) = handed log := by
  simp [handed, List.filterMap_append, Entry.event?]

@[simp] theorem handed_concat_requested (k : ℕ) :
    handed (log ++ [.requested k]) = handed log := by
  simp [handed, List.filterMap_append, Entry.event?]

@[simp] theorem handed_concat_delta (k : ℕ) (text : Str) :
    handed (log ++ [.delta k text]) = handed log := by
  simp [handed, List.filterMap_append, Entry.event?]

@[simp] theorem requested_concat_emitted (n : ℕ) :
    requested (log ++ [.emitted n]) = requested log := by
  simp [requested, List.filterMap_append, Entry.call?]

/-- An entry that neither hands out an event nor requests a call. -/
def Entry.Mute (entry : Entry) : Prop := entry.event? = none ∧ entry.call? = none

/-- What was noted in the meantime neither hands out an event nor requests a call. -/
def Muted (log log' : List Entry) : Prop :=
  ∃ more, log' = log ++ more ∧ ∀ entry ∈ more, entry.Mute

theorem Muted.refl (log : List Entry) : Muted log log := ⟨[], by simp, by simp⟩

theorem Muted.concat {entry : Entry} (h : entry.Mute) : Muted log (log ++ [entry]) :=
  ⟨[entry], rfl, by simpa using h⟩

theorem Muted.handed {log' : List Entry} {log : List Entry} (h : Muted log log') :
    handed log' = handed log := by
  obtain ⟨more, rfl, hmore⟩ := h
  simp only [HorizonRelay.handed, List.filterMap_append, List.append_right_eq_self]
  exact List.filterMap_eq_nil_iff.mpr fun entry he => (hmore entry he).1

theorem Muted.requested {log' : List Entry} {log : List Entry} (h : Muted log log') :
    requested log' = requested log := by
  obtain ⟨more, rfl, hmore⟩ := h
  simp only [HorizonRelay.requested, List.filterMap_append, List.append_right_eq_self]
  exact List.filterMap_eq_nil_iff.mpr fun entry he => (hmore entry he).2

end Log

/-- Where the events of a run have got to. -/
def Run.progress (s : Run) : Progress := .of (told s.log)

/-! ## Turns at the lock -/

/-- The event lock, the numbers of those who wait for it, and the log. -/
structure Queue (s : Run) : Prop where
  nodup : s.eventLock.waiters.Nodup
  apart : ∀ i, s.eventLock.holder = some i → i ∉ s.eventLock.waiters
  /-- Callbacks in progress are those of the holder. -/
  idle : s.eventLock.holder = none → inProgress s.log = []
  numbered : ∀ i ∈ s.eventLock.waiters, s.number i ≤ s.seq
  /-- First come, first numbered. -/
  ordered : s.eventLock.waiters.Pairwise fun i j => s.number i < s.number j
  /-- A number is handed out before the larger ones, unless its task is being cancelled. -/
  waiting : ∀ i ∈ s.eventLock.waiters, i ∉ s.cancels → ∀ e ∈ handed s.log, e.seq < s.number i
  bounded : ∀ e ∈ handed s.log, e.seq ≤ s.seq
  increasing : ((handed s.log).map RelayEvent.seq).Pairwise (· < ·)
  /-- At no time was more than one callback in progress. -/
  serial : ∀ w, w <+: s.log → (inProgress w).length ≤ 1

theorem queue_empty : Queue {} where
  nodup := List.nodup_nil
  apart := by simp
  idle := fun _ => rfl
  numbered := by simp
  ordered := List.Pairwise.nil
  waiting := by simp
  bounded := by simp [handed]
  increasing := List.Pairwise.nil
  serial := by
    rintro w hw
    obtain rfl : w = [] := List.prefix_nil.mp hw
    simp [inProgress]

section Queue
variable {s : Run} {i : Thread}

/-- What the lock's order does not depend on. -/
theorem Queue.congr {s' : Run} (h : Queue s) (hlock : s'.eventLock = s.eventLock)
    (hlog : s'.log = s.log) (hseq : s'.seq = s.seq) (hnumber : s'.number = s.number)
    (hcancels : ∀ j ∈ s.eventLock.waiters, j ∈ s.cancels → j ∈ s'.cancels) : Queue s' where
  nodup := hlock ▸ h.nodup
  apart := hlock ▸ h.apart
  idle := by rw [hlock, hlog]; exact h.idle
  numbered := by rw [hlock, hseq, hnumber]; exact h.numbered
  ordered := by rw [hlock, hnumber]; exact h.ordered
  waiting := by
    rw [hlock, hlog, hnumber]
    exact fun j hj hc => h.waiting j hj fun hc' => hc (hcancels j hj hc')
  bounded := by rw [hlog, hseq]; exact h.bounded
  increasing := by rw [hlog]; exact h.increasing
  serial := by rw [hlog]; exact h.serial

/-- An entry about neither events nor callbacks. -/
theorem Queue.see (h : Queue s) {e : Entry} (hturn : ∀ o, e.turn o = o)
    (hevent : e.event? = none) : Queue (s.see e) := by
  have hhanded : handed (s.see e).log = handed s.log := by
    simp [handed, Run.see, List.filterMap_append, hevent]
  have hprog : inProgress (s.see e).log = inProgress s.log := by
    rw [Run.see, inProgress_concat, hturn]
  refine
    { nodup := h.nodup, apart := h.apart, idle := by rw [hprog]; exact h.idle
      numbered := h.numbered, ordered := h.ordered
      waiting := by rw [hhanded]; exact h.waiting
      bounded := by rw [hhanded]; exact h.bounded
      increasing := by rw [hhanded]; exact h.increasing
      serial := fun w hw => ?_ }
  rcases List.prefix_concat_iff.mp hw with rfl | hw
  · rw [inProgress_concat, hturn]
    exact h.serial _ (List.prefix_refl _)
  · exact h.serial w hw

/-- A task that is not in the queue numbers its event. -/
theorem Queue.nextEvent (h : Queue s) (hi : i ∉ s.eventLock.waiters) :
    Queue (s.nextEvent i) := by
  have hne : ∀ j ∈ s.eventLock.waiters, (s.nextEvent i).number j = s.number j :=
    fun j hj => Function.update_of_ne (fun heq : j = i => hi (heq ▸ hj)) _ _
  refine
    { nodup := h.nodup, apart := h.apart, idle := h.idle
      numbered := fun j hj => ?_, ordered := ?_, waiting := fun j hj hc => ?_
      bounded := fun e he => (h.bounded e he).trans (Nat.le_succ _)
      increasing := h.increasing, serial := h.serial }
  · rw [hne j hj]
    exact (h.numbered j hj).trans (Nat.le_succ _)
  · refine h.ordered.imp_of_mem fun {a b} ha hb hab => ?_
    rw [hne a ha, hne b hb]
    exact hab
  · rw [hne j hj]
    exact h.waiting j hj hc

/-- A task with a new number joins the queue at its end. -/
theorem Queue.enqueue (h : Queue s) (hi : i ∉ s.eventLock.waiters)
    (hholder : s.eventLock.holder ≠ some i) (hnumber : s.number i = s.seq)
    (hlater : ∀ j ∈ s.eventLock.waiters, s.number j < s.seq)
    (hhanded : ∀ e ∈ handed s.log, e.seq < s.seq) : Queue (s.enqueue i) := by
  have hmem : ∀ j, j ∈ (s.enqueue i).eventLock.waiters ↔ j ∈ s.eventLock.waiters ∨ j = i := by
    simp [Run.enqueue]
  refine
    { nodup := ?_, apart := fun j hj => ?_, idle := h.idle
      numbered := fun j hj => ?_, ordered := ?_, waiting := fun j hj hc => ?_
      bounded := h.bounded, increasing := h.increasing, serial := h.serial }
  · exact List.nodup_append.mpr ⟨h.nodup, List.nodup_singleton i, by
      rintro a ha b hb rfl
      exact hi (List.mem_singleton.mp hb ▸ ha)⟩
  · rw [hmem, not_or]
    exact ⟨h.apart j hj, fun heq => hholder (heq ▸ hj)⟩
  · rcases (hmem j).mp hj with hj | rfl
    · exact h.numbered j hj
    · exact hnumber.le
  · refine List.pairwise_append.mpr ⟨h.ordered, List.pairwise_singleton _ _, ?_⟩
    intro a ha b hb
    obtain rfl := List.mem_singleton.mp hb
    change s.number a < s.number b
    rw [hnumber]
    exact hlater a ha
  · rcases (hmem j).mp hj with hj | rfl
    · exact h.waiting j hj hc
    · intro e he
      change e.seq < s.number j
      rw [hnumber]
      exact hhanded e he

/-- A task leaves the queue. -/
theorem Queue.dequeue (h : Queue s) (i : Thread) : Queue (s.dequeue i) where
  nodup := h.nodup.erase i
  apart j hj hmem := h.apart j hj (List.mem_of_mem_erase hmem)
  idle := h.idle
  numbered j hj := h.numbered j (List.mem_of_mem_erase hj)
  ordered := h.ordered.sublist List.erase_sublist
  waiting j hj := h.waiting j (List.mem_of_mem_erase hj)
  bounded := h.bounded
  increasing := h.increasing
  serial := h.serial

/-- A task outside the queue takes the free lock. -/
theorem Queue.hold (h : Queue s) (hi : i ∉ s.eventLock.waiters) : Queue (s.hold i) where
  nodup := h.nodup
  apart j hj := by
    obtain rfl : i = j := Option.some.inj hj
    exact hi
  idle hnone := by cases hnone
  numbered := h.numbered
  ordered := h.ordered
  waiting := h.waiting
  bounded := h.bounded
  increasing := h.increasing
  serial := h.serial

/-- The holder hands out its event: its number is larger than those before, and smaller than
those that are still to come. -/
theorem Queue.hand (h : Queue s) {e : RelayEvent} (hheld : s.eventLock.holder = some i)
    (hidle : inProgress s.log = []) (hseq : e.seq ≤ s.seq)
    (hlast : ∀ e' ∈ handed s.log, e'.seq < e.seq)
    (hnext : ∀ j ∈ s.eventLock.waiters, j ∉ s.cancels → e.seq < s.number j) :
    Queue (s.see (.handed e)) where
  nodup := h.nodup
  apart := h.apart
  idle hnone := by
    rw [show (s.see (.handed e)).eventLock = s.eventLock from rfl, hheld] at hnone
    cases hnone
  numbered := h.numbered
  ordered := h.ordered
  waiting j hj hc e' he' := by
    simp only [Run.see, handed_concat_handed, List.mem_append, List.mem_singleton] at he'
    rcases he' with he' | rfl
    · exact h.waiting j hj hc e' he'
    · exact hnext j hj hc
  bounded e' he' := by
    simp only [Run.see, handed_concat_handed, List.mem_append, List.mem_singleton] at he'
    rcases he' with he' | rfl
    · exact h.bounded e' he'
    · exact hseq
  increasing := by
    simp only [Run.see, handed_concat_handed, List.map_append, List.map_singleton]
    refine List.pairwise_append.mpr ⟨h.increasing, List.pairwise_singleton _ _, ?_⟩
    intro a ha b hb
    obtain ⟨e', he', rfl⟩ := List.mem_map.mp ha
    obtain rfl := List.mem_singleton.mp hb
    exact hlast e' he'
  serial w hw := by
    rcases List.prefix_concat_iff.mp hw with rfl | hw
    · simp [Entry.turn, hidle]
    · exact h.serial w hw

/-- The holder's callback is over. -/
theorem Queue.emitted (h : Queue s) {n : ℕ} (hbusy : inProgress s.log = [n]) :
    Queue (s.see (.emitted n)) where
  nodup := h.nodup
  apart := h.apart
  idle _ := by simp [Run.see, Entry.turn, hbusy]
  numbered := h.numbered
  ordered := h.ordered
  waiting := by simpa [Run.see] using h.waiting
  bounded := by simpa [Run.see] using h.bounded
  increasing := by simpa [Run.see] using h.increasing
  serial w hw := by
    rcases List.prefix_concat_iff.mp hw with rfl | hw
    · simp [Entry.turn, hbusy]
    · exact h.serial w hw

/-- The lock is free again. -/
theorem Queue.release (h : Queue s) (hidle : inProgress s.log = []) : Queue s.release where
  nodup := h.nodup
  apart _ hj := by cases hj
  idle _ := hidle
  numbered := h.numbered
  ordered := h.ordered
  waiting := h.waiting
  bounded := h.bounded
  increasing := h.increasing
  serial := h.serial

/-- Whoever is next in the queue has a smaller number than those behind, unless these are
being cancelled. -/
theorem Queue.next (h : Queue s) (hi : i ∈ s.eventLock.waiters)
    (hnext : s.eventLock.next s.cancels i = true) {j : Thread} (hj : j ∈ s.eventLock.waiters)
    (hne : j ≠ i) (hc : j ∉ s.cancels) : s.number i < s.number j := by
  simp only [Lock.next, Bool.and_eq_true, List.all_eq_true] at hnext
  obtain ⟨ahead, behind, hsplit⟩ := List.append_of_mem hi
  have hahead : i ∉ ahead := by
    have := h.nodup
    rw [hsplit] at this
    exact fun hmem => (List.nodup_append.mp this).2.2 i hmem i List.mem_cons_self rfl
  have htake : (s.eventLock.waiters.takeWhile (· ≠ i)) = ahead := by
    rw [hsplit, List.takeWhile_append_of_pos (by
      intro a ha
      simpa using fun heq : a = i => hahead (heq ▸ ha))]
    simp
  have hord := h.ordered
  rw [hsplit] at hj hord
  rcases List.mem_append.mp hj with hj | hj
  · exact absurd (by simpa using hnext.2 j (htake ▸ hj)) hc
  · rcases List.mem_cons.mp hj with rfl | hj
    · exact absurd rfl hne
    · exact (List.pairwise_cons.mp (List.pairwise_append.mp hord).2.1).1 j hj

end Queue

end HorizonRelay
