import Mathlib.Data.List.SplitBy
import HorizonRelay.Lib.Infix
import HorizonRelay.OpenWebUI.StreamRelay
import HorizonRelay.Providers.Live

/-!
# Thinking and answer in the chat message

The adapter opens and closes its block and its fences in order, whatever the models write.
Whether a reader who splits the message at the first end tag finds the work before it and
the answer after it depends on what they write: `separated_iff` says exactly when.

## Main definitions

* `nest`, `Nested` — marks that open and close in order.
* `Separated` — the work stands in the block, the answer after it.
* `Untagged` — no heading and no run of chunks of the work has an end tag.

## Main results

* `separated_iff` — when the message is separated.
* `separated_tagged` — a run in which it is not.
-/

namespace HorizonRelay

open Py Infix

/-! ## Order of the marks -/

/-- What a mark does to the block and the fence, where it may stand. -/
def Mark.step : Bool × Bool → Mark → Option (Bool × Bool)
  | (false, false), .openThinking => some (true, false)
  | (true, false), .closeThinking => some (false, false)
  | (true, false), .heading .. => some (true, false)
  | (true, false), .openFence => some (true, true)
  | (true, true), .closeFence => some (true, false)
  | _, _ => none

/-- What marks do, one after the other, if each may stand where it does. -/
def nest (marks : List Mark) (s : Bool × Bool) : Option (Bool × Bool) := marks.foldlM Mark.step s

/-- Block and fences open and close in order, and nothing is open in the end: fences are in the
block, and headings in the block but in no fence. -/
def Nested (marks : List Mark) : Prop := nest marks (false, false) = some (false, false)

/-- The block is opened once and closed, fences are closed inside it, and a reader who splits the
message at its first end tag has the work before it and the answer after it. -/
structure Separated (pieces : List Piece) : Prop where
  opened : (marksOf pieces).count .openThinking = 1
  closed : (marksOf pieces).count .closeThinking = 1
  nested : Nested (marksOf pieces)
  split : ∃ before after, upTo endTag (message pieces) = some (before, after) ∧
    ∀ l p r, pieces = l ++ p :: r →
      (p.role = .work → message l ++ p.string <+: before) ∧
      (p.role = .answer → before ++ endTag <+: message l ++ p.markup)

/-- Chunks with nothing between them in the message: of one step, and both reasoning or both
not. -/
def SameRun (lib : StdLib) (models : Dict Str Str) (d e : Delta) : Bool :=
  stepHeading lib models d.call = stepHeading lib models e.call &&
    d.call.isThinking = e.call.isThinking

/-- No heading of the work has an end tag, and no run of its chunks, taken together. -/
def Untagged (lib : StdLib) (models : Dict Str Str) (work : List Delta) : Prop :=
  (∀ d ∈ work, Free endTag (stepHeading lib models d.call)) ∧
    ∀ run ∈ work.splitBy (SameRun lib models), Free endTag (run.flatMap Delta.text)

variable {lib : StdLib} {models : Dict Str Str} {ds : List Delta} {s : StreamState}

theorem nest_append (a b : List Mark) (s : Bool × Bool) :
    nest (a ++ b) s = (nest a s).bind (nest b) := List.foldlM_append ..

@[simp] theorem nest_nil (s : Bool × Bool) : nest [] s = some s := rfl

@[simp] theorem message_nil : message [] = [] := rfl

theorem message_append (a b : List Piece) : message (a ++ b) = message a ++ message b :=
  List.flatMap_append

theorem message_cons (p : Piece) (ps : List Piece) : message (p :: ps) = p.string ++ message ps :=
  List.flatMap_cons

theorem marksOf_append (a b : List Piece) : marksOf (a ++ b) = marksOf a ++ marksOf b :=
  List.flatMap_append

theorem deltas_append (a b : List Delta) (s : StreamState) :
    StreamState.deltas lib models (a ++ b) s =
      ((StreamState.deltas lib models a s).1 ++
          (StreamState.deltas lib models b (StreamState.deltas lib models a s).2).1,
        (StreamState.deltas lib models b (StreamState.deltas lib models a s).2).2) := by
  induction a generalizing s with
  | nil => rfl
  | cons d a ih => simp [StreamState.deltas, ih]

/-! ## What the operations write -/

namespace StreamState

/-- The marks before a chunk of the work, by what has to change. -/
def stepMarks (heading : Str) (isThinking : Bool) (s : StreamState) : List Mark :=
  if some heading ≠ s.heading then
    (if s.fenced then [Mark.closeFence] else []) ++
      .heading (s.heading.any fun h => !h.isEmpty) heading ::
        if isThinking then [] else [.openFence]
  else if isThinking then (if s.fenced then [.closeFence] else [])
  else if s.fenced then [] else [.openFence]

/-- The state after a chunk of the work. -/
def worked (heading : Str) (isThinking : Bool) (s : StreamState) : StreamState :=
  { s with
    heading := some heading
    fenced := !isThinking
    fresh := !isThinking && (some heading ≠ s.heading || !s.fenced) || s.fresh }

@[simp] theorem worked_fenced (heading : Str) (isThinking : Bool) (s : StreamState) :
    (s.worked heading isThinking).fenced = !isThinking := rfl

@[simp] theorem worked_heading (heading : Str) (isThinking : Bool) (s : StreamState) :
    (s.worked heading isThinking).heading = some heading := rfl

@[simp] theorem worked_thinking (heading : Str) (isThinking : Bool) (s : StreamState) :
    (s.worked heading isThinking).thinking = s.thinking := rfl

theorem worked_fresh {heading : Str} {isThinking : Bool}
    (h : s.stepMarks heading isThinking = []) : (s.worked heading isThinking).fresh = s.fresh := by
  cases s with
  | mk thinking answered h' fenced fresh =>
      by_cases hh : some heading = h'
      · subst hh
        cases isThinking <;> cases fenced <;> simp [stepMarks, worked] at h ⊢
      · simp [stepMarks, hh] at h

theorem openStep_eq (heading : Str) (isThinking : Bool) (s : StreamState) :
    s.openStep heading isThinking =
      (s.stepMarks heading isThinking, s.worked heading isThinking) := by
  cases s with
  | mk thinking answered h fenced fresh =>
      by_cases hh : some heading = h
      · subst hh
        cases isThinking <;> cases fenced <;>
          simp [openStep, openHeading, adjustFence, closeFence, stepMarks, worked]
      · cases isThinking <;> cases fenced <;>
          simp [openStep, openHeading, adjustFence, closeFence, stepMarks, worked, hh]

/-- A chunk of the work is one piece, once the block is open. -/
theorem workDelta_of_thinking (hs : s.thinking = true) (heading : Str) (isThinking : Bool)
    (text : Str) : s.workDelta heading isThinking text =
      ([⟨.work, s.stepMarks heading isThinking, ((s.worked heading isThinking).trim text).1⟩],
        ((s.worked heading isThinking).trim text).2) := by
  have hthink : { s with thinking := true } = s := by rw [← hs]
  simp [workDelta, hs, hthink, openStep_eq]

@[simp] theorem trim_thinking (text : Str) (s : StreamState) :
    (s.trim text).2.thinking = s.thinking := by
  unfold trim
  split <;> rfl

@[simp] theorem trim_answered (text : Str) (s : StreamState) :
    (s.trim text).2.answered = s.answered := by
  unfold trim
  split <;> rfl

@[simp] theorem trim_heading (text : Str) (s : StreamState) :
    (s.trim text).2.heading = s.heading := by
  unfold trim
  split <;> rfl

@[simp] theorem trim_fenced (text : Str) (s : StreamState) :
    (s.trim text).2.fenced = s.fenced := by
  unfold trim
  split <;> rfl

/-- The marks before a chunk go from one place of the block to another. -/
theorem nest_stepMarks (heading : Str) (isThinking : Bool) (s : StreamState) :
    nest (s.stepMarks heading isThinking) (true, s.fenced) = some (true, !isThinking) := by
  cases s with
  | mk thinking answered h fenced fresh =>
      by_cases hh : some heading = h
      · subst hh
        cases isThinking <;> cases fenced <;> simp [stepMarks, nest, Mark.step]
      · cases isThinking <;> cases fenced <;> simp [stepMarks, nest, Mark.step, hh]

theorem not_mem_stepMarks (heading : Str) (isThinking : Bool) (s : StreamState) :
    Mark.openThinking ∉ s.stepMarks heading isThinking ∧
      Mark.closeThinking ∉ s.stepMarks heading isThinking := by
  unfold stepMarks
  repeat' split
  all_goals simp

/-- The marks at the end of the block. -/
def endMarks (s : StreamState) : List Mark :=
  (if s.fenced then [.closeFence] else []) ++ [.closeThinking]

theorem closeThinking_of_thinking (hs : s.thinking = true) :
    s.closeThinking.1 = s.endMarks ∧ s.closeThinking.2.thinking = false := by
  cases s with
  | mk thinking answered h fenced fresh =>
      obtain rfl : thinking = true := hs
      cases fenced <;> exact ⟨rfl, rfl⟩

theorem closeThinking_of_not (hs : s.thinking = false) : s.closeThinking = ([], s) := by
  simp [closeThinking, hs]

end StreamState

/-! ## The work and the answer -/

/-- What the chunks of the work add to an open block. -/
structure InBlock (s s' : StreamState) (pieces : List Piece) : Prop where
  work : ∀ p ∈ pieces, p.role = .work
  nested : nest (marksOf pieces) (true, s.fenced) = some (true, s'.fenced)
  opens : Mark.openThinking ∉ marksOf pieces
  closes : Mark.closeThinking ∉ marksOf pieces
  thinking : s'.thinking = true

theorem delta_of_work {d : Delta} (hd : d.call.isAnswer = false) (s : StreamState) :
    s.delta lib models d =
      s.workDelta (stepHeading lib models d.call) d.call.isThinking d.text := by
  simp [StreamState.delta, hd]

theorem InBlock.deltas (hds : ∀ d ∈ ds, d.call.isAnswer = false) (hs : s.thinking = true) :
    InBlock s (StreamState.deltas lib models ds s).2 (StreamState.deltas lib models ds s).1 := by
  induction ds generalizing s with
  | nil =>
      refine ⟨?_, rfl, ?_, ?_, hs⟩ <;> simp [StreamState.deltas, marksOf]
  | cons d ds ih =>
      simp only [StreamState.deltas, delta_of_work (hds d (by simp)),
        StreamState.workDelta_of_thinking hs]
      have h := ih (s := ((s.worked (stepHeading lib models d.call) d.call.isThinking).trim
        d.text).2) (fun e he => hds e (by simp [he])) (by simpa using hs)
      obtain ⟨ho, hc⟩ := s.not_mem_stepMarks (stepHeading lib models d.call) d.call.isThinking
      refine ⟨?_, ?_, ?_, ?_, h.thinking⟩
      · simpa using h.work
      · rw [marksOf_append, nest_append]
        have hfirst := s.nest_stepMarks (stepHeading lib models d.call) d.call.isThinking
        have hrest := h.nested
        simp only [StreamState.trim_fenced, StreamState.worked_fenced] at hrest
        simpa [marksOf, hfirst] using hrest
      · simpa [marksOf_append, marksOf, ho] using h.opens
      · simpa [marksOf_append, marksOf, hc] using h.closes

/-- Pieces of the answer in front of which nothing is written. -/
def Plain (pieces : List Piece) : Prop := ∀ p ∈ pieces, p.role = .answer ∧ p.marks = []

/-- The answer and the end of a run. -/
def answers (lib : StdLib) (models : Dict Str Str) (outs : List Delta) (e : Ending)
    (s : StreamState) : List Piece :=
  (StreamState.deltas lib models outs s).1 ++ [(StreamState.deltas lib models outs s).2.ending e]

theorem answers_plain (houts : ∀ d ∈ ds, d.call.isAnswer = true) (hs : s.thinking = false)
    (e : Ending) : Plain (answers lib models ds e s) := by
  induction ds generalizing s with
  | nil =>
      intro p hp
      obtain rfl : p = s.ending e := by simpa [answers, StreamState.deltas] using hp
      cases e <;> simp [StreamState.ending, s.closeThinking_of_not hs]
  | cons d ds ih =>
      have hd := houts d (by simp)
      have hclose := StreamState.closeThinking_of_not (s := { s with answered := true }) hs
      have h := ih (s := { s with answered := true }) (fun e he => houts e (by simp [he])) hs
      have hcons : answers lib models (d :: ds) e s =
          ⟨.answer, [], d.text⟩ :: answers lib models ds e { s with answered := true } := by
        simp only [answers, StreamState.deltas, StreamState.delta, hd, if_true,
          StreamState.answerDelta, hclose]
        rfl
      intro p hp
      rw [hcons] at hp
      rcases List.mem_cons.mp hp with rfl | hp
      · exact ⟨rfl, rfl⟩
      · exact h p hp

/-- The first piece of the answer ends the block. -/
theorem answers_closing (houts : ∀ d ∈ ds, d.call.isAnswer = true) (hs : s.thinking = true)
    (e : Ending) : ∃ text rest, answers lib models ds e s = ⟨.answer, s.endMarks, text⟩ :: rest ∧
      Plain rest := by
  cases ds with
  | nil =>
      obtain ⟨hmarks, -⟩ := StreamState.closeThinking_of_thinking hs
      cases e with
      | error text =>
          exact ⟨_, [], by simp only [answers, StreamState.deltas, StreamState.ending, hmarks]; rfl,
            by simp [Plain]⟩
      | done content summary =>
          exact ⟨_, [], by simp only [answers, StreamState.deltas, StreamState.ending, hmarks]; rfl,
            by simp [Plain]⟩
  | cons d ds =>
      have hd := houts d (by simp)
      obtain ⟨hmarks, hthinking⟩ :=
        StreamState.closeThinking_of_thinking (s := { s with answered := true }) hs
      refine ⟨d.text, answers lib models ds e
        ({ s with answered := true } : StreamState).closeThinking.2, ?_,
        answers_plain (fun e he => houts e (by simp [he])) hthinking e⟩
      simp only [answers, StreamState.deltas, StreamState.delta, hd, if_true,
        StreamState.answerDelta, hmarks]
      rfl

/-! ## End tags in what is written -/

theorem endTag_ne_nil : endTag ≠ [] := by decide

/-- The heading a mark has, if it has one, has no end tag. -/
def Mark.Untagged : Mark → Prop
  | .heading _ text => Free endTag text
  | _ => True

theorem text_heading (later : Bool) (text : Str) : (Mark.heading later text).text =
    (if later then ['\n', '\n'] else []) ++ '*' :: '*' :: (text ++ ['*', '*', '\n']) := by
  cases later <;> rfl

theorem text_openFence : Mark.openFence.text =
    '\x60' :: '\x60' :: '\x60' :: (['j', 's', 'o', 'n'] ++ ['\n']) := rfl

theorem text_closeFence : Mark.closeFence.text = ['\n', '\x60', '\x60', '\x60', '\n'] := rfl

/-- Marks inside the block keep the texts around them apart. -/
theorem free_mark_iff {m : Mark} (ho : m ≠ .openThinking) (hc : m ≠ .closeThinking)
    (before after : Str) : Free endTag (before ++ (m.text ++ after)) ↔
      Free endTag before ∧ m.Untagged ∧ Free endTag after := by
  have hstar : '*' ∉ endTag := by decide
  have hline : '\n' ∉ endTag := by decide
  have htick : '\x60' ∉ endTag := by decide
  have hne := endTag_ne_nil
  cases m with
  | openThinking => exact absurd rfl ho
  | closeThinking => exact absurd rfl hc
  | heading later text =>
      have hbody : ∀ before,
          Free endTag (before ++ '*' :: '*' :: (text ++ '*' :: '*' :: '\n' :: after)) ↔
            Free endTag before ∧ Free endTag text ∧ Free endTag after := by
        intro before
        rw [free_append_cons_iff hne hstar, free_cons_iff hne hstar,
          free_append_cons_iff hne hstar, free_cons_iff hne hstar, free_cons_iff hne hline]
      have hfront := hbody []
      simp only [List.nil_append, Free.nil hne, true_and] at hfront
      rw [text_heading]
      cases later with
      | false =>
          simp only [Bool.false_eq_true, if_false, List.nil_append, List.cons_append,
            List.append_assoc]
          exact hbody before
      | true =>
          simp only [if_true, List.cons_append, List.append_assoc, List.nil_append]
          rw [free_append_cons_iff hne hline, free_cons_iff hne hline, hfront]
          rfl
  | openFence =>
      have hjson : Free endTag ['j', 's', 'o', 'n'] := by decide
      have hafter : Free endTag ((['j', 's', 'o', 'n'] ++ ['\n']) ++ after) ↔
          Free endTag after := by
        rw [List.append_assoc, List.singleton_append, free_append_cons_iff hne hline,
          and_iff_right hjson]
      rw [text_openFence, List.cons_append, List.cons_append, List.cons_append,
        free_append_cons_iff hne htick, free_cons_iff hne htick, free_cons_iff hne htick, hafter]
      exact and_congr_right fun _ => (true_and _).symm.to_iff
  | closeFence =>
      rw [text_closeFence]
      simp only [List.cons_append, List.nil_append]
      rw [free_append_cons_iff hne hline, free_cons_iff hne htick, free_cons_iff hne htick,
        free_cons_iff hne htick, free_cons_iff hne hline]
      exact and_congr_right fun _ => (true_and _).symm.to_iff

theorem free_marks_iff {marks : List Mark} (hne : marks ≠ []) (ho : Mark.openThinking ∉ marks)
    (hc : Mark.closeThinking ∉ marks) (before after : Str) :
    Free endTag (before ++ (marks.flatMap Mark.text ++ after)) ↔
      Free endTag before ∧ (∀ m ∈ marks, m.Untagged) ∧ Free endTag after := by
  induction marks generalizing before with
  | nil => exact absurd rfl hne
  | cons m marks ih =>
      have hm := free_mark_iff (m := m) (fun h => ho (by simp [h])) (fun h => hc (by simp [h]))
        before (marks.flatMap Mark.text ++ after)
      rw [List.flatMap_cons, List.append_assoc, hm]
      by_cases hmarks : marks = []
      · subst hmarks
        simp
      · have h := ih hmarks (fun h => ho (by simp [h])) (fun h => hc (by simp [h])) []
        rw [List.nil_append] at h
        rw [h, List.forall_mem_cons]
        simp only [Free.nil endTag_ne_nil, true_and, and_assoc]

/-! ## Runs of chunks -/

/-- What a run of chunks has written: the chunks, and what is left of them without the blank
lines at the front.  They have an end tag in common. -/
structure Written (p q : Str) (s : StreamState) : Prop where
  same : ∀ z, Free endTag (q ++ z) ↔ Free endTag (p ++ z)
  blank : s.fresh = true → (∀ c ∈ p, c ∉ endTag) ∧ ∀ c ∈ q, c ∉ endTag

theorem Written.nil (s : StreamState) : Written [] [] s where
  same _ := Iff.rfl
  blank _ := by simp

theorem Written.of_not_fresh (h : s.fresh = false) (p : Str) : Written p p s where
  same _ := Iff.rfl
  blank hf := by simp [h] at hf

/-- Trimming takes away no part of an end tag. -/
theorem Written.trim {p q : Str} (h : Written p q s) (text : Str) :
    Written (p ++ text) (q ++ (s.trim text).1) (s.trim text).2 := by
  by_cases hfresh : s.fresh = true
  · obtain ⟨hp, hq⟩ := h.blank hfresh
    have hsplit : text = text.takeWhile (· = '\n') ++ lstripNewlines text :=
      List.takeWhile_append_dropWhile.symm
    have hlines : ∀ c ∈ text.takeWhile (· = '\n'), c ∉ endTag := by
      intro c hc
      have hline := List.mem_takeWhile_imp hc
      obtain rfl : c = '\n' := by simpa using hline
      decide
    have htrim : s.trim text = (lstripNewlines text,
        { s with fresh := (lstripNewlines text).strip.isEmpty }) := by
      simp [StreamState.trim, hfresh]
    rw [htrim]
    refine ⟨fun z => ?_, fun hblank => ?_⟩
    · rw [List.append_assoc, List.append_assoc, free_append_iff endTag_ne_nil hq,
        free_append_iff endTag_ne_nil hp]
      conv_rhs => rw [hsplit, List.append_assoc, free_append_iff endTag_ne_nil hlines]
    · have hspace := Str.strip_eq_nil_iff.mp (List.isEmpty_iff.mp hblank)
      have hclean : ∀ c ∈ lstripNewlines text, c ∉ endTag := by
        intro c hc hmem
        have hno : endTag.all (fun c => !isSpace c) = true := by decide
        have hc' := List.all_eq_true.mp hno c hmem
        simp [hspace c hc] at hc'
      refine ⟨fun c hc => ?_, fun c hc => ?_⟩
      · rw [hsplit] at hc
        rcases List.mem_append.mp hc with hc | hc
        · exact hp c hc
        · rcases List.mem_append.mp hc with hc | hc
          · exact hlines c hc
          · exact hclean c hc
      · rcases List.mem_append.mp hc with hc | hc
        · exact hq c hc
        · exact hclean c hc
  · have hno : s.fresh = false := by simpa using hfresh
    have htrim : s.trim text = (text, s) := by simp [StreamState.trim, hno]
    rw [htrim]
    refine ⟨fun z => ?_, fun hf => absurd hf hfresh⟩
    rw [List.append_assoc, List.append_assoc]
    exact h.same _

/-- No end tag comes to stand in the work from here on: `p` is what the run of the last chunk has
written so far. -/
def FreeFrom (lib : StdLib) (models : Dict Str Str) : Option Delta → Str → List Delta → Prop
  | _, p, [] => Free endTag p
  | last, p, d :: ds =>
      if last.any (SameRun lib models · d) then FreeFrom lib models (some d) (p ++ d.text) ds
      else Free endTag p ∧ Free endTag (stepHeading lib models d.call) ∧
        FreeFrom lib models (some d) d.text ds

/-- The state after a chunk of the work, as far as it tells runs apart. -/
structure Placed (lib : StdLib) (models : Dict Str Str) (last : Option Delta) (s : StreamState) :
    Prop where
  thinking : s.thinking = true
  heading : s.heading = last.map fun d => stepHeading lib models d.call
  fenced : s.fenced = last.any fun d => !d.call.isThinking
  free : ∀ d ∈ last, Free endTag (stepHeading lib models d.call)

/-- Between chunks of one run nothing is written. -/
theorem Placed.stepMarks_eq_nil_iff {last : Option Delta} (h : Placed lib models last s)
    (d : Delta) : s.stepMarks (stepHeading lib models d.call) d.call.isThinking = [] ↔
      last.any (SameRun lib models · d) = true := by
  cases last with
  | none => simp [StreamState.stepMarks, h.heading]
  | some e =>
      have hheading := h.heading
      have hfenced := h.fenced
      simp only [Option.map_some, Option.any_some] at hheading hfenced
      by_cases hsame : stepHeading lib models e.call = stepHeading lib models d.call
      · cases he : e.call.isThinking <;> cases hd : d.call.isThinking <;>
          simp [StreamState.stepMarks, SameRun, hheading, hfenced, hsame, he, hd]
      · simp [StreamState.stepMarks, SameRun, hheading, hsame, Ne.symm hsame]

/-- Where something is written, it has an end tag only in the heading of the chunk. -/
theorem Placed.untagged_stepMarks_iff {last : Option Delta} (h : Placed lib models last s)
    (d : Delta) : (∀ m ∈ s.stepMarks (stepHeading lib models d.call) d.call.isThinking,
      m.Untagged) ↔ Free endTag (stepHeading lib models d.call) := by
  by_cases hsame : some (stepHeading lib models d.call) = s.heading
  · have hfree : Free endTag (stepHeading lib models d.call) := by
      rw [h.heading] at hsame
      obtain ⟨e, he, heq⟩ := Option.map_eq_some_iff.mp hsame.symm
      rw [← heq]
      exact h.free e he
    refine iff_of_true (fun m hm => ?_) hfree
    have hm : m = .closeFence ∨ m = .openFence := by
      revert hm
      simp only [StreamState.stepMarks, hsame, ne_eq, not_true_eq_false, if_false]
      repeat' split
      all_goals simp_all
    rcases hm with rfl | rfl <;> trivial
  · constructor
    · intro hall
      refine hall (.heading (s.heading.any fun h => !h.isEmpty) _) ?_
      simp [StreamState.stepMarks, hsame]
    · intro hfree m hm
      cases m with
      | heading later text =>
          obtain ⟨-, rfl⟩ : later = (s.heading.any fun h => !h.isEmpty) ∧
              text = stepHeading lib models d.call := by
            revert hm
            simp only [StreamState.stepMarks, ne_eq, hsame, not_false_eq_true, if_true]
            repeat' split
            all_goals simp
          exact hfree
      | _ => trivial

theorem Placed.delta {last : Option Delta} {d : Delta} (h : Placed lib models last s)
    (hfree : Free endTag (stepHeading lib models d.call)) : Placed lib models (some d)
      ((s.worked (stepHeading lib models d.call) d.call.isThinking).trim d.text).2 where
  thinking := by simpa using h.thinking
  heading := by simp
  fenced := by simp
  free e he := by
    obtain rfl : d = e := by simpa using he
    exact hfree

/-- What a whole run of the adapter leaves free of end tags: one chunk more is taken by the
state, the last chunk and its run's text together. -/
theorem Placed.free_deltas_iff (hds : ∀ d ∈ ds, d.call.isAnswer = false) {last : Option Delta}
    {p q : Str} (h : Placed lib models last s) (hw : Written p q s) :
    Free endTag (q ++ message (StreamState.deltas lib models ds s).1) ↔
      FreeFrom lib models last p ds := by
  induction ds generalizing s last p q with
  | nil =>
      have hsame := hw.same []
      simpa [StreamState.deltas, FreeFrom] using hsame
  | cons d ds ih =>
      have ih := fun {s} => @ih s fun e he => hds e (by simp [he])
      simp only [StreamState.deltas, delta_of_work (hds d (by simp)),
        StreamState.workDelta_of_thinking h.thinking, List.singleton_append, message_cons,
        Piece.string, Piece.markup, List.append_assoc, FreeFrom]
      by_cases hrun : last.any (SameRun lib models · d) = true
      · -- the chunk goes on with its run
        have hmarks := (h.stepMarks_eq_nil_iff d).mpr hrun
        have hfree : Free endTag (stepHeading lib models d.call) :=
          (h.untagged_stepMarks_iff d).mp (by simp [hmarks])
        have hfresh := StreamState.worked_fresh hmarks
        rw [if_pos hrun, hmarks, List.flatMap_nil, List.nil_append, ← List.append_assoc]
        have hw' : Written p q (s.worked (stepHeading lib models d.call) d.call.isThinking) :=
          ⟨hw.same, fun hf => hw.blank (hfresh ▸ hf)⟩
        exact ih (h.delta hfree) (hw'.trim d.text)
      · have hmarks := mt (h.stepMarks_eq_nil_iff d).mp hrun
        obtain ⟨ho, hc⟩ := s.not_mem_stepMarks (stepHeading lib models d.call) d.call.isThinking
        rw [if_neg hrun, free_marks_iff hmarks ho hc, h.untagged_stepMarks_iff d]
        have hsame := hw.same []
        rw [List.append_nil, List.append_nil] at hsame
        refine and_congr hsame (and_congr_right fun hfree => ?_)
        exact ih (h.delta hfree) ((Written.nil _).trim d.text)

/-- Runs of chunks, taken together, are what is written between the marks. -/
theorem freeFrom_iff {d : Delta} {run : List Delta}
    (hrun : (run ++ [d]).IsChain fun a b => SameRun lib models a b = true)
    (hfree : Free endTag (stepHeading lib models d.call)) :
    FreeFrom lib models (some d) ((run ++ [d]).flatMap Delta.text) ds ↔
      (∀ e ∈ ds, Free endTag (stepHeading lib models e.call)) ∧
        ∀ g ∈ (run ++ d :: ds).splitBy (SameRun lib models),
          Free endTag (g.flatMap Delta.text) := by
  induction ds generalizing d run with
  | nil =>
      rw [List.splitBy_of_isChain (by simp) hrun]
      simp [FreeFrom]
  | cons e ds ih =>
      by_cases hsame : SameRun lib models d e = true
      · -- the next chunk goes on with the run
        have hheading : stepHeading lib models d.call = stepHeading lib models e.call := by
          simp only [SameRun, Bool.and_eq_true, decide_eq_true_eq] at hsame
          exact hsame.1
        have hchain : ((run ++ [d]) ++ [e]).IsChain fun a b => SameRun lib models a b = true := by
          refine List.isChain_append.mpr ⟨hrun, List.isChain_singleton e, ?_⟩
          simpa using hsame
        have h := ih hchain (hheading ▸ hfree)
        simp only [FreeFrom, Option.any_some, hsame, if_true]
        rw [List.flatMap_append, List.flatMap_singleton] at h
        have hfree' : Free endTag (stepHeading lib models e.call) := hheading ▸ hfree
        rw [h, List.forall_mem_cons, and_iff_right hfree', List.append_assoc,
          List.singleton_append]
      · have hno : SameRun lib models d e = false := by simpa using hsame
        have hsplit : (run ++ d :: e :: ds).splitBy (SameRun lib models) =
            (run ++ [d]) :: (e :: ds).splitBy (SameRun lib models) := by
          have h := List.splitBy_append_cons (r := SameRun lib models) (l := run ++ [d]) (a := e)
            ds (by simpa using hno)
          rw [List.splitBy_of_isChain (by simp) hrun] at h
          simpa using h
        simp only [FreeFrom, Option.any_some, hno, Bool.false_eq_true, if_false]
        rw [hsplit, List.forall_mem_cons, List.forall_mem_cons]
        have hstart : ∀ hfree : Free endTag (stepHeading lib models e.call), _ :=
          fun hfree => @ih e [] (List.isChain_singleton e) hfree
        simp only [List.nil_append, List.flatMap_singleton] at hstart
        constructor
        · rintro ⟨hrunFree, hhead, hrest⟩
          have h := (hstart hhead).mp hrest
          exact ⟨⟨hhead, h.1⟩, hrunFree, h.2⟩
        · rintro ⟨⟨hhead, hheads⟩, hrunFree, hruns⟩
          exact ⟨hrunFree, hhead, (hstart hhead).mpr ⟨hheads, hruns⟩⟩

/-- The work of a run has no end tag if and only if no heading and no run of chunks has one. -/
theorem free_work_iff {d : Delta} (hds : ∀ e ∈ d :: ds, e.call.isAnswer = false) :
    Free endTag (message (⟨.work, [.openThinking], []⟩ ::
        (StreamState.deltas lib models (d :: ds) { thinking := true }).1)) ↔
      Untagged lib models (d :: ds) := by
  have hplaced : Placed lib models none { thinking := true } :=
    ⟨rfl, rfl, rfl, by simp⟩
  have hopen : Free endTag Mark.openThinking.text := by decide
  have h := hplaced.free_deltas_iff hds (Written.of_not_fresh rfl Mark.openThinking.text)
  have hmessage : ∀ ps, message (⟨.work, [.openThinking], []⟩ :: ps) =
      Mark.openThinking.text ++ message ps := by
    intro ps
    simp [message_cons, Piece.string, Piece.markup]
  rw [hmessage, h]
  simp only [FreeFrom, Option.any_none, Bool.false_eq_true, if_false, hopen, true_and, Untagged,
    List.forall_mem_cons]
  have hrest : ∀ hfree : Free endTag (stepHeading lib models d.call), _ :=
    fun hfree => @freeFrom_iff lib models ds d [] (List.isChain_singleton d) hfree
  simp only [List.nil_append, List.flatMap_singleton] at hrest
  rw [and_assoc]
  exact and_congr_right hrest

/-! ## The first end tag -/

/-- A text without the stop is what stands before the first one after it. -/
theorem upTo_append {c : Char} {stop body : Str} (hc : c ∉ stop) (h : Free (c :: stop) body)
    (rest : Str) : upTo (c :: stop) (body ++ (c :: stop ++ rest)) = some (body, rest) := by
  induction body with
  | nil =>
      have hpre : (c :: stop).isPrefixOf (c :: stop ++ rest) = true :=
        List.isPrefixOf_iff_prefix.mpr (List.prefix_append _ _)
      have hdrop : (c :: stop ++ rest).drop (c :: stop).length = rest := List.drop_left
      rw [List.cons_append] at hpre hdrop
      rw [List.nil_append, List.cons_append, upTo, if_pos hpre, hdrop]
  | cons d body ih =>
      have hpre : ¬ (c :: stop).isPrefixOf (d :: (body ++ (c :: stop ++ rest))) = true := by
        rw [List.isPrefixOf_iff_prefix]
        exact h.not_prefix hc
      have htail : Free (c :: stop) body := h.part (List.suffix_cons d body).isInfix
      rw [List.cons_append, upTo, if_neg hpre, ih htail]
      rfl

/-- What stands before the first stop has none. -/
theorem free_of_upTo {stop s b a : Str} (hstop : stop ≠ []) (h : upTo stop s = some (b, a)) :
    Free stop b := by
  induction s generalizing b with
  | nil =>
      unfold upTo at h
      rw [if_neg (by simpa using hstop)] at h
      cases h
  | cons c rest ih =>
      have hs := upTo_eq_some h
      unfold upTo at h
      split at h
      · cases h
        exact Free.nil hstop
      · rename_i hno
        obtain ⟨⟨b', a'⟩, hup, h⟩ := Option.map_eq_some_iff.mp h
        cases h
        intro hinfix
        rcases List.infix_cons_iff.mp hinfix with hpre | hinfix
        · refine hno (List.isPrefixOf_iff_prefix.mpr ?_)
          rw [hs]
          exact hpre.trans (List.prefix_append _ _)
        · exact ih hup hinfix

theorem upTo_endTag {body : Str} (h : Free endTag body) (rest : Str) :
    upTo endTag (body ++ (endTag ++ rest)) = some (body, rest) := by
  have hend : endTag = '<' :: "/think>".toList := rfl
  rw [hend] at h ⊢
  exact upTo_append (by decide) h rest

theorem text_closeThinking : Mark.closeThinking.text = endTag ++ "\n\n".toList := rfl

/-- The end of the block is the end tag, and a fence before it at most. -/
theorem StreamState.text_endMarks (s : StreamState) : ∃ fence,
    s.endMarks.flatMap Mark.text = fence ++ (endTag ++ "\n\n".toList) ∧
      ∀ x, Free endTag x → Free endTag (x ++ fence) := by
  cases hs : s.fenced with
  | false => exact ⟨[], by simp [endMarks, hs, text_closeThinking], fun x h => by simpa using h⟩
  | true =>
      refine ⟨Mark.closeFence.text, by simp [endMarks, hs, text_closeThinking], fun x h => ?_⟩
      have hmark := free_mark_iff (m := .closeFence) (by simp) (by simp) x []
      rw [List.append_nil] at hmark
      exact hmark.mpr ⟨h, trivial, Free.nil endTag_ne_nil⟩

/-- A piece of the work stands in the first part, a piece of the answer in the second one. -/
theorem role_split {a b l r : List Piece} {p : Piece} (ha : ∀ x ∈ a, x.role = .work)
    (hb : ∀ x ∈ b, x.role = .answer) (h : a ++ b = l ++ p :: r) :
    (p.role = .work → ∃ t, a = l ++ p :: t) ∧
      (p.role = .answer → ∃ m, l = a ++ m ∧ b = m ++ p :: r) := by
  rcases List.append_eq_append_iff.mp h with ⟨m, hl, hbm⟩ | ⟨t, hat, hpr⟩
  · have hp : p.role = .answer := hb p (by simp [hbm])
    exact ⟨fun hw => by simp [hp] at hw, fun _ => ⟨m, hl, hbm⟩⟩
  · cases t with
    | nil =>
        have hp : p.role = .answer := hb p (by rw [List.nil_append] at hpr; simp [← hpr])
        exact ⟨fun hw => by simp [hp] at hw, fun _ => ⟨[], by simpa using hat.symm, hpr.symm⟩⟩
    | cons q t =>
        obtain ⟨rfl, -⟩ := List.cons.inj hpr
        have hp : p.role = .work := ha p (by simp [hat])
        exact ⟨fun _ => ⟨t, hat⟩, fun hw => by simp [hp] at hw⟩

/-- An opened block, its end with the first piece of the answer, and the rest of the answer: the
end tag that ends the block is the first one if the work has none. -/
theorem separated_append_iff {s : StreamState} {work rest : List Piece} {text : Str}
    (hwork : InBlock { thinking := true } s work) (hrest : Plain rest) :
    Separated (⟨.work, [.openThinking], []⟩ :: work ++ ⟨.answer, s.endMarks, text⟩ :: rest) ↔
      Free endTag (message (⟨.work, [.openThinking], []⟩ :: work)) := by
  obtain ⟨block, hblock⟩ : ∃ block, (⟨.work, [.openThinking], []⟩ : Piece) :: work = block :=
    ⟨_, rfl⟩
  have hroles : ∀ p ∈ block, p.role = .work := by
    rw [← hblock, List.forall_mem_cons]
    exact ⟨rfl, hwork.work⟩
  have hanswer : ∀ p ∈ (⟨.answer, s.endMarks, text⟩ : Piece) :: rest, p.role = .answer := by
    rw [List.forall_mem_cons]
    exact ⟨rfl, fun p hp => (hrest p hp).1⟩
  have hnone : marksOf rest = [] := List.flatMap_eq_nil_iff.mpr fun p hp => (hrest p hp).2
  have hmarks : marksOf (block ++ ⟨.answer, s.endMarks, text⟩ :: rest) =
      .openThinking :: (marksOf work ++ s.endMarks) := by
    rw [← hblock, marksOf_append]
    have hrest : marksOf (⟨.answer, s.endMarks, text⟩ :: rest) = s.endMarks ++ marksOf rest := rfl
    rw [hrest, hnone, List.append_nil]
    rfl
  rw [hblock]
  constructor
  · intro hsep
    obtain ⟨before, after, hup, hpieces⟩ := hsep.split
    obtain ⟨l, p, hlp⟩ := List.eq_nil_or_concat block |>.resolve_left (by simp [← hblock])
    rw [List.concat_eq_append] at hlp
    obtain ⟨hpre, -⟩ := hpieces l p (⟨.answer, s.endMarks, text⟩ :: rest) (by simp [hlp])
    have hwhole := hpre (hroles p (by simp [hlp]))
    rw [hlp, message_append, message_cons, message_nil, List.append_nil]
    exact (free_of_upTo endTag_ne_nil hup).part hwhole.isInfix
  · intro hfree
    obtain ⟨fence, hfence, hkeep⟩ := s.text_endMarks
    have hmessage : message (block ++ ⟨.answer, s.endMarks, text⟩ :: rest) =
        (message block ++ fence) ++ (endTag ++ ("\n\n".toList ++ (text ++ message rest))) := by
      rw [message_append, message_cons, Piece.string, Piece.markup, hfence]
      simp only [List.append_assoc]
    refine ⟨?_, ?_, ?_, message block ++ fence, "\n\n".toList ++ (text ++ message rest), ?_,
      fun l p r hlpr => ?_⟩
    · rw [hmarks, List.count_cons_self, List.count_append,
        List.count_eq_zero_of_not_mem hwork.opens, List.count_eq_zero_of_not_mem (by
          cases hs : s.fenced <;> simp [StreamState.endMarks, hs])]
    · rw [hmarks, List.count_cons_of_ne (by simp), List.count_append,
        List.count_eq_zero_of_not_mem hwork.closes]
      cases hs : s.fenced <;> simp [StreamState.endMarks, hs]
    · have hnested := hwork.nested
      have hopened : nest [Mark.openThinking] (false, false) = some (true, false) := rfl
      rw [Nested, hmarks, ← List.singleton_append, nest_append, hopened, Option.bind_some,
        nest_append, hnested, Option.bind_some]
      cases hs : s.fenced <;> simp [StreamState.endMarks, hs, nest, Mark.step]
    · rw [hmessage]
      exact upTo_endTag (hkeep _ hfree) _
    · obtain ⟨hw, ha⟩ := role_split hroles hanswer hlpr
      constructor
      · intro hp
        obtain ⟨t, ht⟩ := hw hp
        rw [ht, message_append, message_cons]
        exact ⟨message t ++ fence, by simp only [List.append_assoc]⟩
      · intro hp
        obtain ⟨m, rfl, hm⟩ := ha hp
        cases m with
        | nil =>
            obtain ⟨rfl, -⟩ := List.cons.inj hm
            rw [List.append_nil, Piece.markup, hfence]
            exact ⟨"\n\n".toList, by simp only [List.append_assoc]⟩
        | cons q m =>
            obtain ⟨rfl, -⟩ := List.cons.inj hm
            rw [message_append, message_cons, Piece.string, Piece.markup, hfence]
            exact ⟨_, by simp only [List.append_assoc]; rfl⟩

/-! ## Whole runs -/

/-- Where the output of the final step comes last, a run is its work, then its answer. -/
theorem filter_append_filter (h : ds.Pairwise fun a b => a.call.isAnswer = true →
    b.call.isAnswer = true) :
    ds = (ds.filter fun d => !d.call.isAnswer) ++ ds.filter fun d => d.call.isAnswer := by
  induction ds with
  | nil => rfl
  | cons d ds ih =>
      obtain ⟨hd, hds⟩ := List.pairwise_cons.mp h
      by_cases hans : d.call.isAnswer = true
      · have hall : ∀ e ∈ d :: ds, e.call.isAnswer = true :=
          List.forall_mem_cons.mpr ⟨hans, fun e he => hd e he hans⟩
        have hself : (d :: ds).filter (fun d => d.call.isAnswer) = d :: ds :=
          List.filter_eq_self.mpr hall
        have hnone : (d :: ds).filter (fun d => !d.call.isAnswer) = [] := by
          rw [List.filter_eq_nil_iff]
          intro e he
          simp [hall e he]
        rw [hself, hnone, List.nil_append]
      · have hno : d.call.isAnswer = false := by simpa using hans
        simp only [List.filter_cons, hno, Bool.not_false, if_true, Bool.false_eq_true, if_false,
          List.cons_append, ← ih hds]

theorem streamRelay_append (work outs : List Delta) (e : Ending) :
    streamRelay lib models (work ++ outs) e =
      (StreamState.deltas lib models work {}).1 ++
        answers lib models outs e (StreamState.deltas lib models work {}).2 := by
  simp [streamRelay, answers, deltas_append]

/-- The first chunk of the work opens the block. -/
theorem deltas_opening {d : Delta} (hd : d.call.isAnswer = false) :
    StreamState.deltas lib models (d :: ds) {} =
      (⟨.work, [.openThinking], []⟩ ::
          (StreamState.deltas lib models (d :: ds) { thinking := true }).1,
        (StreamState.deltas lib models (d :: ds) { thinking := true }).2) := by
  simp [StreamState.deltas, delta_of_work hd, StreamState.workDelta]

/-- **The work of a run and its answer are told apart at the first end tag of the message, in
whatever order the chunks of parallel steps come, if and only if no heading and no run of chunks of
the work has an end tag.** -/
theorem separated_iff (lib : StdLib) (models : Dict Str Str) (ds : List Delta) (e : Ending)
    (hlast : ds.Pairwise fun a b => a.call.isAnswer = true → b.call.isAnswer = true)
    (hopen : Mark.openThinking ∈ marksOf (streamRelay lib models ds e)) :
    Separated (streamRelay lib models ds e) ↔
      Untagged lib models (ds.filter fun d => !d.call.isAnswer) := by
  obtain ⟨work, hwork⟩ : ∃ work, (ds.filter fun d => !d.call.isAnswer) = work := ⟨_, rfl⟩
  obtain ⟨outs, houts⟩ : ∃ outs, (ds.filter fun d => d.call.isAnswer) = outs := ⟨_, rfl⟩
  have hds := filter_append_filter hlast
  rw [hwork, houts] at hds
  have hansw : ∀ d ∈ outs, d.call.isAnswer = true := by
    intro d hd
    rw [← houts] at hd
    exact (List.mem_filter.mp hd).2
  have hnot : ∀ d ∈ work, d.call.isAnswer = false := by
    intro d hd
    rw [← hwork] at hd
    simpa using (List.mem_filter.mp hd).2
  rw [hwork]
  rw [hds, streamRelay_append] at hopen ⊢
  cases work with
  | nil =>
      -- the answer alone opens no block
      have hplain : Plain (answers lib models outs e {}) := answers_plain hansw rfl e
      simp only [StreamState.deltas, List.nil_append, marksOf, List.mem_flatMap] at hopen
      obtain ⟨p, hp, hmark⟩ := hopen
      rw [(hplain p hp).2] at hmark
      cases hmark
  | cons d work =>
      obtain ⟨s, hs⟩ : ∃ s,
          (StreamState.deltas lib models (d :: work) { thinking := true }).2 = s := ⟨_, rfl⟩
      have hblock : InBlock { thinking := true } s
          (StreamState.deltas lib models (d :: work) { thinking := true }).1 :=
        hs ▸ InBlock.deltas hnot rfl
      obtain ⟨text, rest, hclosing, hrest⟩ : ∃ text rest, answers lib models outs e s =
          ⟨.answer, s.endMarks, text⟩ :: rest ∧ Plain rest :=
        answers_closing hansw hblock.thinking e
      rw [deltas_opening (hnot d (by simp)), hs, hclosing, separated_append_iff hblock hrest,
        free_work_iff hnot]

/-- What a small model thinks and then writes as its first answer. -/
def solveChunks (text text' : Str) : List Delta :=
  [⟨⟨"small".toList, "solve".toList, none, some 1, none, some "thinking".toList⟩, text⟩,
    ⟨⟨"small".toList, "solve".toList, none, some 1, none, none⟩, text'⟩]

/-- The case of a run whose two chunks hold a part of the tag each: the fence stands between. -/
theorem separated_iff_solve :
    Separated (streamRelay asciiLib Dict.empty (solveChunks "a </th".toList "ink> b".toList)
      (.error "stopped".toList)) := by
  refine (separated_iff asciiLib Dict.empty (solveChunks "a </th".toList "ink> b".toList)
    (.error "stopped".toList) ?_ ?_).mpr ?_
  · decide +kernel
  · decide +kernel
  · unfold Untagged
    decide +kernel

/-- A model that writes an end tag while it thinks ends the block for the reader. -/
theorem separated_tagged :
    ∃ (ds : List Delta) (e : Ending), (ds.Pairwise fun a b => a.call.isAnswer = true →
        b.call.isAnswer = true) ∧
      Mark.openThinking ∈ marksOf (streamRelay asciiLib Dict.empty ds e) ∧
      ¬ Separated (streamRelay asciiLib Dict.empty ds e) := by
  refine ⟨solveChunks "a </think> b".toList "c".toList, .error "stopped".toList, ?_, ?_, ?_⟩
  · decide +kernel
  · decide +kernel
  · rintro ⟨-, -, -, before, after, hup, hpieces⟩
    let pieces := streamRelay asciiLib Dict.empty (solveChunks "a </think> b".toList "c".toList)
      (.error "stopped".toList)
    obtain ⟨hwork, -⟩ := hpieces (pieces.take 1)
      ⟨.work, [.heading false "small · answer 1".toList], "a </think> b".toList⟩ (pieces.drop 2)
      (by decide +kernel)
    have htag : endTag <:+: message (pieces.take 1) ++ Piece.string
        ⟨.work, [.heading false "small · answer 1".toList], "a </think> b".toList⟩ := by
      decide +kernel
    exact free_of_upTo endTag_ne_nil hup (htag.trans (hwork rfl).isInfix)

end HorizonRelay
