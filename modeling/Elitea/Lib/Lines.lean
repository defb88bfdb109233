/-
Texts as lines, each with its ending. A line ends with a line feed, with a
carriage return before it or not; the last line of a text may end without
one. A carriage return elsewhere is a character like any other.

`splitInclusive` cuts a text after every line feed. Its results are the
`Proper` lists (`proper_splitInclusive`), and a proper list is what its
own text is cut into (`splitInclusive_flatten`): no two of its lines are
joined, and none of them is empty.
-/
import Mathlib.Data.List.Basic

namespace Elitea.Lib.Lines

abbrev Text := List Char

def lf : Text := ['\n']

def crlf : Text := ['\r', '\n']

/-- The pieces of a text after each line feed. -/
def splitInclusive : Text → List Text
  | [] => []
  | c :: rest =>
      if c = '\n' then [c] :: splitInclusive rest
      else match splitInclusive rest with
        | [] => [[c]]
        | line :: more => (c :: line) :: more

/-- The ending of a line. -/
def endingOf (line : Text) : Text :=
  match line.reverse with
  | '\n' :: '\r' :: _ => crlf
  | '\n' :: _ => lf
  | _ => []

/-- A line without its ending. -/
def stripEnding (line : Text) : Text :=
  line.take (line.length - (endingOf line).length)

/-- The lines of a text, without their endings. -/
def lines (text : Text) : List Text := (splitInclusive text).map stripEnding

/-- A character of the Unicode property White_Space. -/
def isWhitespace (c : Char) : Bool :=
  let n := c.toNat
  (0x09 ≤ n && n ≤ 0x0D) || n = 0x20 || n = 0x85 || n = 0xA0 || n = 0x1680
    || (0x2000 ≤ n && n ≤ 0x200A) || n = 0x2028 || n = 0x2029
    || n = 0x202F || n = 0x205F || n = 0x3000

def trimEnd (t : Text) : Text := (t.reverse.dropWhile isWhitespace).reverse

def trim (t : Text) : Text := trimEnd (t.dropWhile isWhitespace)

-- ================================================================== endings

section Endings

variable {line t : Text}

/-- A line ends with a line feed. -/
def Terminated (line : Text) : Prop := ∃ t, '\n' ∉ t ∧ line = t ++ lf

/-- A line ends with one of the two endings, or not at all. -/
theorem endingOf_cases (line : Text) :
    (endingOf line = crlf ∧ ∃ t, line = t ++ crlf)
      ∨ (endingOf line = lf ∧ ∃ t, line = t ++ lf ∧ ∀ r, t ≠ r ++ ['\r'])
      ∨ (endingOf line = [] ∧ ∀ t, line ≠ t ++ lf) := by
  unfold endingOf
  split
  next rest h =>
    refine .inl ⟨rfl, rest.reverse, ?_⟩
    rw [← List.reverse_reverse line, h, List.reverse_cons, List.reverse_cons,
      List.append_assoc]
    rfl
  next rest hne h =>
    refine .inr (.inl ⟨rfl, rest.reverse, ?_, ?_⟩)
    · rw [← List.reverse_reverse line, h, List.reverse_cons]
      rfl
    · intro r hr
      have := congrArg List.reverse hr
      rw [List.reverse_reverse, List.reverse_append] at this
      exact hne r.reverse this
  next hne hne' =>
    refine .inr (.inr ⟨rfl, fun t ht => hne' t.reverse ?_⟩)
    rw [ht, List.reverse_append]
    rfl

/-- A line is its text and its ending. -/
theorem strip_append_ending (line : Text) :
    stripEnding line ++ endingOf line = line := by
  have front : ∀ {e : Text}, endingOf line = e → (∃ t, line = t ++ e) →
      stripEnding line ++ endingOf line = line := by
    rintro e he ⟨t, rfl⟩
    unfold stripEnding
    rw [he, List.length_append, Nat.add_sub_cancel, List.take_left]
  rcases endingOf_cases line with ⟨he, h⟩ | ⟨he, t, h, -⟩ | ⟨he, -⟩
  · exact front he h
  · exact front he ⟨t, h⟩
  · exact front he ⟨line, (List.append_nil line).symm⟩

theorem stripEnding_of_none (h : endingOf line = []) :
    stripEnding line = line := by
  have := strip_append_ending line
  rwa [h, List.append_nil] at this

/-- A line without an ending has no line feed at its end. -/
theorem endingOf_eq_nil_iff : endingOf line = [] ↔ ∀ t, line ≠ t ++ lf := by
  constructor
  · intro h t ht
    rcases endingOf_cases line with ⟨he, -⟩ | ⟨he, -⟩ | ⟨-, hne⟩
    · rw [h] at he
      cases he
    · rw [h] at he
      cases he
    · exact hne t ht
  · intro h
    rcases endingOf_cases line with ⟨-, t, ht⟩ | ⟨-, t, ht, -⟩ | ⟨he, -⟩
    · refine absurd ?_ (h (t ++ ['\r']))
      rw [ht, List.append_assoc]
      rfl
    · exact absurd ht (h t)
    · exact he

theorem Terminated.endingOf_ne (h : Terminated line) :
    endingOf line ≠ [] := by
  obtain ⟨t, -, rfl⟩ := h
  exact fun he => endingOf_eq_nil_iff.1 he t rfl

theorem terminated_lf (ht : '\n' ∉ t) : Terminated (t ++ lf) :=
  ⟨t, ht, rfl⟩

theorem terminated_crlf (ht : '\n' ∉ t) : Terminated (t ++ crlf) := by
  refine ⟨t ++ ['\r'], ?_, by rw [List.append_assoc]; rfl⟩
  rw [List.mem_append, not_or]
  exact ⟨ht, by decide⟩

end Endings

-- ============================================================= proper lists

/-- A last line: not empty, and a line feed at its end only. -/
def LastLine (line : Text) : Prop :=
  Terminated line ∨ (line ≠ [] ∧ '\n' ∉ line)

/-- The lines of a text: all but the last end with a line feed. -/
def Proper : List Text → Prop
  | [] => True
  | [line] => LastLine line
  | line :: next :: more => Terminated line ∧ Proper (next :: more)

section Proper

variable {line : Text} {ls : List Text}

theorem proper_cons_iff : Proper (line :: ls)
    ↔ (ls = [] ∧ LastLine line) ∨ (ls ≠ [] ∧ Terminated line ∧ Proper ls) := by
  cases ls with
  | nil =>
      exact ⟨fun h => .inl ⟨rfl, h⟩, fun h => by
        rcases h with ⟨-, h⟩ | ⟨h, -⟩
        · exact h
        · exact absurd rfl h⟩
  | cons next more =>
      exact ⟨fun h => .inr ⟨List.cons_ne_nil _ _, h⟩, fun h => by
        rcases h with ⟨h, -⟩ | ⟨-, h⟩
        · cases h
        · exact h⟩

theorem Proper.tail (h : Proper (line :: ls)) : Proper ls := by
  rcases proper_cons_iff.1 h with ⟨rfl, -⟩ | ⟨-, -, h⟩
  · trivial
  · exact h

theorem Proper.last (h : Proper (line :: ls)) : LastLine line := by
  rcases proper_cons_iff.1 h with ⟨-, h⟩ | ⟨-, h, -⟩
  · exact h
  · exact .inl h

/-- Every line of a text has a line feed at its end at most. -/
theorem Proper.lastLine (h : Proper ls) : ∀ line ∈ ls, LastLine line := by
  induction ls with
  | nil => exact fun line hl => nomatch hl
  | cons line ls ih =>
      exact List.forall_mem_cons.2 ⟨h.last, ih h.tail⟩

theorem proper_splitInclusive (text : Text) :
    Proper (splitInclusive text) := by
  induction text with
  | nil => trivial
  | cons c rest ih =>
      rw [splitInclusive]
      split
      next hc =>
        subst hc
        have hline : Terminated ['\n'] := ⟨[], List.not_mem_nil, rfl⟩
        by_cases hr : splitInclusive rest = []
        · exact proper_cons_iff.2 (.inl ⟨hr, .inl hline⟩)
        · exact proper_cons_iff.2 (.inr ⟨hr, hline, ih⟩)
      next hc =>
        have extend : ∀ {line : Text}, Terminated line →
            Terminated (c :: line) := by
          rintro line ⟨t, ht, rfl⟩
          refine ⟨c :: t, ?_, rfl⟩
          rw [List.mem_cons, not_or]
          exact ⟨fun h => hc h.symm, ht⟩
        split
        next =>
          refine .inr ⟨List.cons_ne_nil _ _, ?_⟩
          rw [List.mem_singleton]
          exact fun h => hc h.symm
        next line more hr =>
          rw [hr] at ih
          rcases proper_cons_iff.1 ih with ⟨hnil, hlast⟩ | ⟨hne, hline, h⟩
          · refine proper_cons_iff.2 (.inl ⟨hnil, ?_⟩)
            rcases hlast with hline | ⟨-, hno⟩
            · exact .inl (extend hline)
            · refine .inr ⟨List.cons_ne_nil _ _, ?_⟩
              rw [List.mem_cons, not_or]
              exact ⟨fun h => hc h.symm, hno⟩
          · exact proper_cons_iff.2 (.inr ⟨hne, extend hline, h⟩)

theorem flatten_splitInclusive (text : Text) :
    (splitInclusive text).flatten = text := by
  induction text with
  | nil => rfl
  | cons c rest ih =>
      rw [splitInclusive]
      split
      next => rw [List.flatten_cons, ih]; rfl
      next =>
        split
        next hr =>
          rw [hr] at ih
          rw [← ih]
          rfl
        next line more hr =>
          rw [hr, List.flatten_cons] at ih
          rw [List.flatten_cons, List.cons_append, ih]

/-- A line at the front of a text. -/
theorem splitInclusive_terminated {t rest : Text} (ht : '\n' ∉ t) :
    splitInclusive (t ++ lf ++ rest) = (t ++ lf) :: splitInclusive rest := by
  induction t with
  | nil =>
      change splitInclusive ('\n' :: rest) = _
      rw [splitInclusive, if_pos rfl]
      rfl
  | cons c t ih =>
      rw [List.mem_cons, not_or] at ht
      rw [List.cons_append, List.cons_append, splitInclusive,
        if_neg fun h => ht.1 h.symm, ih ht.2]

/-- A text without a line feed is one line. -/
theorem splitInclusive_last (hne : line ≠ []) (h : '\n' ∉ line) :
    splitInclusive line = [line] := by
  induction line with
  | nil => exact absurd rfl hne
  | cons c rest ih =>
      rw [List.mem_cons, not_or] at h
      rw [splitInclusive, if_neg fun hc => h.1 hc.symm]
      cases rest with
      | nil => rfl
      | cons d more => rw [ih (List.cons_ne_nil d more) h.2]

/-- A proper list is what its text is cut into. -/
theorem splitInclusive_flatten (h : Proper ls) :
    splitInclusive ls.flatten = ls := by
  induction ls with
  | nil => rfl
  | cons line ls ih =>
      have front : Terminated line →
          splitInclusive (line ++ ls.flatten) = line :: ls := by
        rintro ⟨t, ht, rfl⟩
        rw [splitInclusive_terminated ht, ih h.tail]
      rw [List.flatten_cons]
      rcases proper_cons_iff.1 h with ⟨rfl, hlast⟩ | ⟨-, hline, -⟩
      · rcases hlast with hline | ⟨hne, hno⟩
        · exact front hline
        · rw [List.flatten_nil, List.append_nil]
          exact splitInclusive_last hne hno
      · exact front hline

end Proper

end Elitea.Lib.Lines
