import Mathlib.Data.List.Dedup
import Mathlib.Data.List.Induction
import Mathlib.Data.List.Basic

/-!
# Insertion-ordered dictionaries

A dictionary keeps its entries in the order their keys were first set; setting a key
again replaces its value in place.  Keys are unique by construction.

## Main definitions

* `Dict` — the entries, with their distinct keys.
* `Dict.get?`, `Dict.set`, `Dict.ofList` — lookup, assignment, and building one by
  assigning in order.
-/

namespace Py

variable {K V : Type} [DecidableEq K]

/-- Entries with distinct keys, in insertion order. -/
structure Dict (K V : Type) where
  entries : List (K × V)
  nodup : (entries.map Prod.fst).Nodup

namespace Dict

/-- The keys, in order. -/
def keys (d : Dict K V) : List K := d.entries.map Prod.fst

/-- The values, in order. -/
def values (d : Dict K V) : List V := d.entries.map Prod.snd

/-- `{}`. -/
def empty : Dict K V := ⟨[], List.nodup_nil⟩

instance : Inhabited (Dict K V) := ⟨empty⟩

/-- `d.get(k)`. -/
def get? (d : Dict K V) (k : K) : Option V := d.entries.lookup k

/-- Replace the value of a key where it stands, or append it. -/
def setEntries (k : K) (v : V) : List (K × V) → List (K × V)
  | [] => [(k, v)]
  | (k', v') :: rest => if k' = k then (k, v) :: rest else (k', v') :: setEntries k v rest

omit [DecidableEq K] in
theorem nodup_keys (d : Dict K V) : d.keys.Nodup := d.nodup

theorem mem_setEntries_keys {k k' : K} {v : V} {l : List (K × V)} :
    k' ∈ (setEntries k v l).map Prod.fst ↔ k' = k ∨ k' ∈ l.map Prod.fst := by
  induction l with
  | nil => simp [setEntries]
  | cons e l ih =>
      obtain ⟨k₀, v₀⟩ := e
      by_cases h : k₀ = k
      · subst h
        simp [setEntries]
      · simp only [setEntries, h, if_false, List.map_cons, List.mem_cons, ih]
        tauto

theorem nodup_setEntries {k : K} {v : V} {l : List (K × V)}
    (h : (l.map Prod.fst).Nodup) : ((setEntries k v l).map Prod.fst).Nodup := by
  induction l with
  | nil => simp [setEntries]
  | cons e l ih =>
      obtain ⟨k₀, v₀⟩ := e
      rw [List.map_cons, List.nodup_cons] at h
      by_cases hk : k₀ = k
      · subst hk
        simpa [setEntries] using h
      · simp only [setEntries, hk, if_false, List.map_cons, List.nodup_cons]
        refine ⟨?_, ih h.2⟩
        rw [mem_setEntries_keys]
        rintro (rfl | hm)
        · exact hk rfl
        · exact h.1 hm

/-- `d[k] = v`. -/
def set (d : Dict K V) (k : K) (v : V) : Dict K V :=
  ⟨setEntries k v d.entries, nodup_setEntries d.nodup⟩

/-- Change every value. -/
def mapValues (f : V → V) (d : Dict K V) : Dict K V :=
  ⟨d.entries.map fun e => (e.1, f e.2), by
    rw [List.map_map]
    exact d.nodup⟩

/-- Assign the entries of a list in order. -/
def ofList (l : List (K × V)) : Dict K V := l.foldl (fun d e => d.set e.1 e.2) empty

@[simp] theorem get?_empty (k : K) : (empty : Dict K V).get? k = none := rfl

theorem lookup_cons (k k₀ : K) (v₀ : V) (l : List (K × V)) :
    ((k₀, v₀) :: l).lookup k = if k = k₀ then some v₀ else l.lookup k := by
  rw [List.lookup_cons]
  by_cases h : k = k₀
  · simp [h]
  · rw [show (k == k₀) = false from by simpa using h, if_neg h]

theorem lookup_setEntries (k k' : K) (v : V) (l : List (K × V)) :
    (setEntries k v l).lookup k' = if k' = k then some v else l.lookup k' := by
  induction l with
  | nil => simp [setEntries, lookup_cons]
  | cons e l ih =>
      obtain ⟨k₀, v₀⟩ := e
      by_cases h₀ : k₀ = k
      · subst h₀
        by_cases h : k' = k₀ <;> simp [setEntries, lookup_cons, h]
      · by_cases h : k' = k
        · subst h
          simp [setEntries, h₀, lookup_cons, ih, Ne.symm h₀]
        · simp [setEntries, h₀, lookup_cons, h, ih]

/-- What a lookup finds after an assignment. -/
theorem get?_set (d : Dict K V) (k k' : K) (v : V) :
    (d.set k v).get? k' = if k' = k then some v else d.get? k' :=
  lookup_setEntries k k' v d.entries

@[simp] theorem get?_set_self (d : Dict K V) (k : K) (v : V) : (d.set k v).get? k = some v := by
  simp [get?_set]

theorem get?_mapValues (f : V → V) (d : Dict K V) (k : K) :
    (d.mapValues f).get? k = (d.get? k).map f := by
  change (d.entries.map fun e => (e.1, f e.2)).lookup k = (d.entries.lookup k).map f
  induction d.entries with
  | nil => rfl
  | cons e l ih =>
      obtain ⟨k₀, v₀⟩ := e
      rw [List.map_cons, lookup_cons, lookup_cons, ih]
      split <;> rfl

theorem mem_keys_set {d : Dict K V} {k k' : K} {v : V} :
    k' ∈ (d.set k v).keys ↔ k' = k ∨ k' ∈ d.keys := mem_setEntries_keys

theorem setEntries_of_not_mem {k : K} {v : V} {l : List (K × V)}
    (h : k ∉ l.map Prod.fst) : setEntries k v l = l ++ [(k, v)] := by
  induction l with
  | nil => rfl
  | cons e l ih =>
      obtain ⟨k₀, v₀⟩ := e
      rw [List.map_cons, List.mem_cons, not_or] at h
      rw [setEntries, if_neg (Ne.symm h.1), ih h.2, List.cons_append]

/-- A new key goes to the end. -/
theorem keys_set_of_not_mem {d : Dict K V} {k : K} {v : V} (h : k ∉ d.keys) :
    (d.set k v).keys = d.keys ++ [k] := by
  simp only [keys, set, setEntries_of_not_mem h, List.map_append, List.map_cons, List.map_nil]

theorem setEntries_of_lookup {k : K} {v : V} {l : List (K × V)} (h : l.lookup k = some v) :
    setEntries k v l = l := by
  induction l with
  | nil => cases h
  | cons e l ih =>
      obtain ⟨k₀, v₀⟩ := e
      rw [lookup_cons] at h
      by_cases hk : k₀ = k
      · subst hk
        simp_all [setEntries]
      · rw [if_neg (Ne.symm hk)] at h
        simp only [setEntries, hk, if_false, ih h]

/-- Assigning the value a key already has changes nothing. -/
theorem set_of_get? {d : Dict K V} {k : K} {v : V} (h : d.get? k = some v) : d.set k v = d := by
  obtain ⟨l, hl⟩ := d
  simp only [set, Dict.mk.injEq]
  exact setEntries_of_lookup h

theorem lookup_isSome_iff {k : K} {l : List (K × V)} :
    (l.lookup k).isSome ↔ k ∈ l.map Prod.fst := by
  induction l with
  | nil => simp
  | cons e l ih =>
      obtain ⟨k₀, v₀⟩ := e
      rw [lookup_cons]
      by_cases h : k = k₀ <;> simp [h, ih]

/-- A key is present exactly when it has a value. -/
theorem mem_keys_iff {d : Dict K V} {k : K} : k ∈ d.keys ↔ ∃ v, d.get? k = some v := by
  rw [← Option.isSome_iff_exists]
  exact lookup_isSome_iff.symm

theorem mem_of_lookup {k : K} {v : V} {l : List (K × V)} (h : l.lookup k = some v) :
    (k, v) ∈ l := by
  induction l with
  | nil => cases h
  | cons e l ih =>
      obtain ⟨k₀, v₀⟩ := e
      rw [lookup_cons] at h
      by_cases hk : k = k₀
      · simp_all
      · rw [if_neg hk] at h
        exact List.mem_cons_of_mem _ (ih h)

/-- The entries are what lookup finds. -/
theorem mem_entries_iff {d : Dict K V} {k : K} {v : V} :
    (k, v) ∈ d.entries ↔ d.get? k = some v := by
  refine ⟨fun h => ?_, mem_of_lookup⟩
  have hk : k ∈ d.keys := List.mem_map_of_mem (f := Prod.fst) h
  obtain ⟨v', hv'⟩ := mem_keys_iff.mp hk
  have := List.inj_on_of_nodup_map d.nodup h (mem_of_lookup hv') rfl
  simp only [Prod.mk.injEq, true_and] at this
  rw [hv', this]

theorem lookup_map {α : Type} (key : α → K) (value : α → V) (l : List α) (k : K) :
    (l.map fun a => (key a, value a)).lookup k = (l.find? fun a => key a = k).map value := by
  induction l with
  | nil => rfl
  | cons a l ih =>
      rw [List.map_cons, lookup_cons, List.find?_cons, ih]
      by_cases h : k = key a
      · simp [h]
      · simp [h, Ne.symm h]

/-- A lookup does not depend on how keys are compared. -/
theorem lookup_of_lawful {i : BEq K} [LawfulBEq K] (l : List (K × V)) (k : K) :
    @List.lookup K V i k l = @List.lookup K V instBEqOfDecidableEq k l := by
  induction l with
  | nil => rfl
  | cons e l ih =>
      rw [lookup_cons, ← ih, List.lookup_cons]
      by_cases h : k = e.1
      · rw [if_pos h, beq_iff_eq.mpr h]
      · rw [if_neg h, beq_eq_false_iff_ne.mpr h]

theorem ofList_concat (l : List (K × V)) (e : K × V) :
    ofList (l ++ [e]) = (ofList l).set e.1 e.2 := by
  simp [ofList]

/-- Entries whose keys differ stay as they are. -/
theorem entries_ofList {l : List (K × V)} (h : (l.map Prod.fst).Nodup) :
    (ofList l).entries = l := by
  induction l using List.reverseRecOn with
  | nil => rfl
  | append_singleton l e ih =>
      rw [List.map_append, List.nodup_append] at h
      obtain ⟨hl, -, hdisjoint⟩ := h
      have hnot : e.1 ∉ (ofList l).entries.map Prod.fst := by
        rw [ih hl]
        intro hmem
        exact hdisjoint e.1 hmem e.1 (by simp) rfl
      rw [ofList_concat]
      exact (setEntries_of_not_mem hnot).trans (by rw [ih hl])

/-- Other values under the same keys. -/
theorem get?_ofList_map {W : Type} (g : V → W) (d : Dict K V) (k : K) :
    (ofList (d.entries.map fun e => (e.1, g e.2))).get? k = (d.get? k).map g := by
  have hkeys : ((d.entries.map fun e => (e.1, g e.2)).map Prod.fst).Nodup := by
    rw [List.map_map]
    exact d.nodup
  rw [get?, entries_ofList hkeys, get?]
  induction d.entries with
  | nil => rfl
  | cons e l ih =>
      rw [List.map_cons, lookup_cons, lookup_cons, ih]
      split <;> rfl

/-- Of several entries with one key the last one counts. -/
theorem get?_ofList (l : List (K × V)) (k : K) : (ofList l).get? k = l.reverse.lookup k := by
  induction l using List.reverseRecOn with
  | nil => rfl
  | append_singleton l e ih =>
      obtain ⟨k₀, v₀⟩ := e
      rw [ofList_concat, get?_set, List.reverse_append, List.reverse_singleton,
        List.singleton_append, lookup_cons, ih]

/-- The last entry with a key is the one that is found. -/
theorem get?_ofList_last (l : List (K × V)) {l' : List (K × V)} {k : K} (v : V)
    (h : k ∉ l'.map Prod.fst) : (ofList (l ++ (k, v) :: l')).get? k = some v := by
  induction l' using List.reverseRecOn with
  | nil => rw [ofList_concat, get?_set, if_pos rfl]
  | append_singleton l' e ih =>
      rw [List.map_append, List.mem_append, not_or] at h
      have hne : k ≠ e.1 := by simpa using h.2
      rw [← List.cons_append, ← List.append_assoc, ofList_concat, get?_set, if_neg hne, ih h.1]

theorem mem_keys_ofList {l : List (K × V)} {k : K} : k ∈ (ofList l).keys ↔ k ∈ l.map Prod.fst := by
  rw [mem_keys_iff, ← Option.isSome_iff_exists, get?_ofList, lookup_isSome_iff]
  simp

/-- The keys of a dict built from a list are those of the list, each once. -/
theorem keys_ofList_perm (l : List (K × V)) : (ofList l).keys.Perm (l.map Prod.fst).dedup := by
  refine (List.perm_ext_iff_of_nodup (nodup_keys _) (List.nodup_dedup _)).mpr fun k => ?_
  rw [List.mem_dedup, mem_keys_ofList]

/-- Counting values is counting the keys they belong to. -/
theorem countP_values (d : Dict K V) (p : V → Bool) :
    d.values.countP p = d.keys.countP fun k => (d.get? k).any p := by
  rw [values, keys, List.countP_map, List.countP_map]
  refine List.countP_congr fun e he => ?_
  have hget : d.get? e.1 = some e.2 := mem_entries_iff.mp he
  simp [hget]

end Dict

end Py
