import HorizonRelay.Engine.Relay
import HorizonRelay.Lib.Infix

/-!
# What a request asks for

The parts of a request are counted over its whole task text: the goal with the names and the
texts of its sources, or a conversation.  No marker stands across a line break, so what is
counted is what these texts name between them.

## Main definitions

* `LowerLaws` — what `str.lower` does to ASCII, and at a line break.
* `askedTexts` — the texts a task text is made of.
* `partsOf` — what they ask for between them.

## Main results

* `requestParts_taskText` — the parts of a task text are those of its texts.
-/

namespace HorizonRelay

open Py

/-- `str.lower` on ASCII characters, and on the two sides of a line break. -/
structure LowerLaws (lib : StdLib) : Prop where
  ascii : ∀ s : Str, s.all (fun c => c.toNat < 128) = true → lib.lower s = s.map Char.toLower
  line : ∀ s t : Str, lib.lower (s ++ '\n' :: t) = lib.lower s ++ '\n' :: lib.lower t

/-- The name of a source, as it stands in the task text. -/
def sourceTitle (key : Str) : Str := ['['] ++ key ++ [']']

/-- The texts a task text is made of: the goal, and the names and the texts of its sources; or
the conversation. -/
def askedTexts (goal : Str) (sources : Dict Str Str) : List Str :=
  match sources.entries with
  | [(key, conversation)] =>
      if key = "conversation".toList then
        if conversation.strip = "user: ".toList ++ goal then [goal] else [conversation]
      else [goal, sourceTitle key, conversation]
  | entries => goal :: entries.flatMap fun e => [sourceTitle e.1, e.2]

section Parts
variable (lib : StdLib)

/-- How many of the deliverables are named in some text. -/
def namedIn (texts : List Str) : ℕ :=
  deliverables.countP fun m => texts.any fun t => Str.contains (lib.lower t) m

/-- How many question marks there are. -/
def questionsIn (texts : List Str) : ℕ := (texts.map fun t => List.count '?' (lib.lower t)).sum

/-- What some texts ask for between them. -/
def partsOf (texts : List Str) : ℕ := max 1 (namedIn lib texts + (questionsIn lib texts - 1))

end Parts

variable {lib : StdLib}

/-! ## Counting in parts -/

theorem contains_iff_infix {s m : Str} : Str.contains s m = true ↔ m <:+: s := by
  unfold Str.contains
  rw [List.any_eq_true]
  constructor
  · rintro ⟨t, ht, hpre⟩
    exact (List.isPrefixOf_iff_prefix.mp hpre).isInfix.trans ((List.mem_tails _ _).mp ht).isInfix
  · rintro ⟨a, b, rfl⟩
    refine ⟨m ++ b, (List.mem_tails _ _).mpr ⟨a, by rw [List.append_assoc]⟩, ?_⟩
    exact List.isPrefixOf_iff_prefix.mpr (List.prefix_append m b)

theorem count_singleton (c : Char) (s : Str) : Str.count s [c] = List.count c s := by
  have hgo : ∀ n (t : Str), t.length ≤ n → Str.count.go [c] n t = List.count c t := by
    intro n
    induction n with
    | zero =>
        intro t ht
        rw [List.length_eq_zero_iff.mp (Nat.le_zero.mp ht)]
        rfl
    | succ n ih =>
        intro t ht
        cases t with
        | nil => rfl
        | cons d t =>
            have hrest := ih t (Nat.le_of_succ_le_succ ht)
            unfold Str.count.go
            by_cases hd : d = c
            · subst hd
              simp [hrest]
            · have hpre : [c].isPrefixOf (d :: t) = false := by
                simpa [List.isPrefixOf] using Ne.symm hd
              rw [hpre, List.count_cons_of_ne hd]
              exact hrest
  exact hgo _ _ le_rfl

/-- Deliverables are words on one line. -/
theorem deliverables_line : ∀ m ∈ deliverables, m ≠ [] ∧ '\n' ∉ m := by decide +kernel

theorem contains_line {s t m : Str} (hm : m ∈ deliverables) :
    Str.contains (s ++ '\n' :: t) m = (Str.contains s m || Str.contains t m) := by
  obtain ⟨hne, hline⟩ := deliverables_line m hm
  rw [Bool.eq_iff_iff, Bool.or_eq_true, contains_iff_infix, contains_iff_infix,
    contains_iff_infix]
  exact Infix.infix_append_cons_iff hne hline

theorem requestParts_eq (lib : StdLib) (s : Str) : requestParts lib s = partsOf lib [s] := by
  simp [requestParts, partsOf, namedIn, questionsIn, count_singleton]

/-- A text of two parts asks for what these ask for. -/
theorem partsOf_line (laws : LowerLaws lib) (s t : Str) (rest : List Str) :
    partsOf lib ((s ++ '\n' :: t) :: rest) = partsOf lib (s :: t :: rest) := by
  have hnamed : namedIn lib ((s ++ '\n' :: t) :: rest) = namedIn lib (s :: t :: rest) := by
    refine List.countP_congr fun m hm => ?_
    simp only [List.any_cons, laws.line, contains_line hm, Bool.or_assoc]
  have hquestions : questionsIn lib ((s ++ '\n' :: t) :: rest) =
      questionsIn lib (s :: t :: rest) := by
    simp [questionsIn, laws.line, Nat.add_assoc]
  rw [partsOf, partsOf, hnamed, hquestions]

/-- What texts ask for does not depend on their order. -/
theorem partsOf_perm {ts us : List Str} (h : ts.Perm us) : partsOf lib ts = partsOf lib us := by
  have hnamed : namedIn lib ts = namedIn lib us :=
    List.countP_congr fun m _ => by rw [h.any_eq]
  rw [partsOf, partsOf, hnamed, questionsIn, questionsIn, (h.map _).sum_eq]

/-- A text that names nothing asks for nothing. -/
theorem partsOf_silent {t : Str} (h : ∀ m ∈ deliverables, Str.contains (lib.lower t) m = false)
    (hq : '?' ∉ lib.lower t) (ts : List Str) : partsOf lib (t :: ts) = partsOf lib ts := by
  have hnamed : namedIn lib (t :: ts) = namedIn lib ts :=
    List.countP_congr fun m hm => by rw [List.any_cons, h m hm, Bool.false_or]
  have hquestions : questionsIn lib (t :: ts) = questionsIn lib ts := by
    simp [questionsIn, List.count_eq_zero_of_not_mem hq]
  rw [partsOf, partsOf, hnamed, hquestions]

/-! ## The task text -/

theorem partsOf_nil (laws : LowerLaws lib) (ts : List Str) :
    partsOf lib ([] :: ts) = partsOf lib ts := by
  have hlower : lib.lower [] = [] := laws.ascii [] rfl
  refine partsOf_silent (fun m hm => ?_) (by simp [hlower]) _
  rw [hlower, ← Bool.not_eq_true, contains_iff_infix]
  exact fun h => (deliverables_line m hm).1 (List.infix_nil.mp h)

/-- A text of two parts with a blank line between them. -/
theorem partsOf_blankLine (laws : LowerLaws lib) (s t : Str) (rest : List Str) :
    partsOf lib ((s ++ "\n\n".toList ++ t) :: rest) = partsOf lib (s :: t :: rest) := by
  have hsplit : s ++ "\n\n".toList ++ t = s ++ '\n' :: ([] ++ '\n' :: t) := by simp
  have hswap : ((s :: ([] ++ '\n' :: t) :: rest : List Str)).Perm
      (([] ++ '\n' :: t) :: s :: rest) := .swap _ _ _
  rw [hsplit, partsOf_line laws, partsOf_perm hswap, partsOf_line laws, partsOf_nil laws]
  exact partsOf_perm (.swap _ _ _)

theorem partsOf_section (laws : LowerLaws lib) (e : Str × Str) (rest : List Str) :
    partsOf lib (taskText.section_ e :: rest) =
      partsOf lib (sourceTitle e.1 :: e.2 :: rest) := by
  have hsplit : taskText.section_ e = sourceTitle e.1 ++ '\n' :: e.2 := by
    simp [taskText.section_, sourceTitle]
  rw [hsplit, partsOf_line laws]

/-- The sources of a task text, one after the other. -/
theorem partsOf_sections (laws : LowerLaws lib) (e : Str × Str) (es : List (Str × Str))
    (rest : List Str) :
    partsOf lib (Str.join "\n\n".toList ((e :: es).map taskText.section_) :: rest) =
      partsOf lib ((e :: es).flatMap (fun e => [sourceTitle e.1, e.2]) ++ rest) := by
  induction es generalizing e rest with
  | nil =>
      have hone : Str.join "\n\n".toList ([e].map taskText.section_) = taskText.section_ e := by
        simp [Str.join]
      rw [hone, partsOf_section laws]
      rfl
  | cons e' es ih =>
      have hjoin : Str.join "\n\n".toList ((e :: e' :: es).map taskText.section_) =
          taskText.section_ e ++ "\n\n".toList ++
            Str.join "\n\n".toList ((e' :: es).map taskText.section_) := by
        simp [Str.join]
      rw [hjoin, partsOf_blankLine laws, partsOf_perm (.swap _ _ _), ih]
      refine (partsOf_perm List.perm_middle).trans ?_
      rw [partsOf_section laws]
      rfl

/-- What is said at the end of a conversation. -/
def closingSentence : Str := "Respond to the last user message.".toList

theorem partsOf_closing (laws : LowerLaws lib) (rest : List Str) :
    partsOf lib (closingSentence :: rest) = partsOf lib rest := by
  have hlower : lib.lower closingSentence = closingSentence.map Char.toLower :=
    laws.ascii _ (by decide +kernel)
  refine partsOf_silent ?_ ?_ rest
  · rw [hlower]
    decide +kernel
  · rw [hlower]
    decide +kernel

/-- **A task text asks for what its texts ask for between them.** -/
theorem requestParts_taskText (laws : LowerLaws lib) (goal : Str) (sources : Dict Str Str) :
    requestParts lib (taskText goal sources) = partsOf lib (askedTexts goal sources) := by
  have hfiles : ∀ e es, requestParts lib (goal ++ "\n\n".toList ++
        Str.join "\n\n".toList ((e :: es).map taskText.section_)) =
      partsOf lib (goal :: (e :: es).flatMap fun e => [sourceTitle e.1, e.2]) := by
    intro e es
    rw [requestParts_eq, partsOf_blankLine laws, partsOf_perm (.swap _ _ _),
      partsOf_sections laws]
    exact partsOf_perm (List.perm_append_singleton _ _)
  rcases hentries : sources.entries with _ | ⟨⟨key, conversation⟩, _ | ⟨e, es⟩⟩
  · have htext : taskText goal sources = goal ++ "\n\n".toList ++ [] := by
      unfold taskText
      rw [hentries]
      rfl
    have hasked : askedTexts goal sources = [goal] := by
      unfold askedTexts
      rw [hentries]
      rfl
    rw [htext, hasked, requestParts_eq, partsOf_blankLine laws, partsOf_perm (.swap _ _ _),
      partsOf_nil laws]
  · have htext : taskText goal sources = if key = "conversation".toList then
          if conversation.strip = "user: ".toList ++ goal then goal
          else conversation ++ "\n\nRespond to the last user message.".toList
        else goal ++ "\n\n".toList ++ taskText.section_ (key, conversation) := by
      unfold taskText
      rw [hentries]
    have hasked : askedTexts goal sources = if key = "conversation".toList then
          if conversation.strip = "user: ".toList ++ goal then [goal] else [conversation]
        else [goal, sourceTitle key, conversation] := by
      unfold askedTexts
      rw [hentries]
    rw [htext, hasked]
    split_ifs
    · exact requestParts_eq lib goal
    · have hclose : conversation ++ "\n\nRespond to the last user message.".toList =
          conversation ++ "\n\n".toList ++ closingSentence := by
        rw [List.append_assoc]
        rfl
      rw [hclose, requestParts_eq, partsOf_blankLine laws, partsOf_perm (.swap _ _ _),
        partsOf_closing laws]
    · have h := hfiles (key, conversation) []
      simpa [Str.join] using h
  · have htext : taskText goal sources = goal ++ "\n\n".toList ++
        Str.join "\n\n".toList (((key, conversation) :: e :: es).map taskText.section_) := by
      unfold taskText
      rw [hentries]
    have hasked : askedTexts goal sources =
        goal :: ((key, conversation) :: e :: es).flatMap fun e => [sourceTitle e.1, e.2] := by
      unfold askedTexts
      rw [hentries]
    rw [htext, hasked, hfiles]

end HorizonRelay
