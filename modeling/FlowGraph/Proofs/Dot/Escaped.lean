import FlowGraph.Dot.Escape
import Mathlib.Data.List.Basic

/-!
# Escaped texts

A text is escaped by six replacements, one after the other, and each puts backslashes where a later
one finds them. Backslashes come first and no replacement touches what an earlier one has written,
so that each character is escaped by itself. What is written can be read back pair by pair, and no
character in it that is special between quotes stands unprotected.

## Main definitions

* `Dot.replacements`: the replacements, in their order
* `Dot.unescape?`: read an escaped text
* `Dot.isProtected`: whether a backslash protects the character at a position
* `Dot.IsSafe`: texts that can stand between quotes

## Main results

* `Dot.toList_escapeText_eq_replaceEach`: the replacements escape each character by itself
* `Dot.unescape?_escapeText`: what was escaped is read back
* `Dot.isSafe_escapeText`: what was escaped is safe
* `Dot.escapeText_protects`: all of this together
-/

namespace FlowGraph.Dot

/-! ### One replacement after the other -/

/-- Puts `new` in the place of every occurrence of a character. -/
def replaceChar (text : List Char) (old : Char) (new : List Char) : List Char :=
  text.flatMap fun c => if c = old then new else [c]

/-- The replacements by which a text is escaped, in the order in which they are made. -/
def replacements : List (Char × List Char) :=
  [('\\', ['\\', '\\']), ('"', ['\\', '"']), ('\n', ['\\', 'n']), ('\r', []), ('<', ['\\', '<']),
    ('>', ['\\', '>'])]

/-- Makes replacements one after the other in the whole text. -/
def replaceEach (steps : List (Char × List Char)) (text : List Char) : List Char :=
  steps.foldl (fun text step => replaceChar text step.1 step.2) text

/-- Whatever is replaced, it is replaced in each character of a text by itself. -/
theorem replaceEach_eq_flatMap (steps : List (Char × List Char)) (text : List Char) :
    replaceEach steps text = text.flatMap fun c => replaceEach steps [c] := by
  induction steps generalizing text with
  | nil => exact (List.flatMap_singleton' text).symm
  | cons step steps ih =>
    have hstep (text : List Char) : replaceEach (step :: steps) text =
        (replaceChar text step.1 step.2).flatMap fun c => replaceEach steps [c] := ih _
    simp only [hstep, replaceChar, List.flatMap_assoc, List.flatMap_singleton]

/-- The replacements come to one pass over the text. -/
theorem toList_escapeText_eq_replaceEach (text : String) :
    (escapeText text).toList = replaceEach replacements text.toList := by
  rw [escapeText, String.toList_ofList, replaceEach_eq_flatMap]
  refine List.flatMap_congr fun c _ => ?_
  unfold escapeChar
  split
  iterate 6 rfl
  -- Any other character is none of those that are replaced.
  · simp_all [replaceEach, replacements, replaceChar]

/-! ### Reading an escaped text -/

/-- The character that is meant by a character behind a backslash. -/
def unescapeChar? : Char → Option Char
  | '\\' => some '\\'
  | '"' => some '"'
  | 'n' => some '\n'
  | '<' => some '<'
  | '>' => some '>'
  | _ => none

/-- Reads an escaped text. A backslash and the character after it are read as one, and there has to
be one that can be escaped. -/
def unescape? : List Char → Option (List Char)
  | '\\' :: c :: rest => (unescapeChar? c).bind fun c => (unescape? rest).map (c :: ·)
  | ['\\'] => none
  | c :: rest => (unescape? rest).map (c :: ·)
  | [] => some []

theorem unescape?_cons_of_ne {c : Char} (h : c ≠ '\\') (rest : List Char) :
    unescape? (c :: rest) = (unescape? rest).map (c :: ·) := by
  cases rest <;> simp [unescape?, h]

/-- An escaped character is read before what follows it, and a carriage return leaves no trace. -/
theorem unescape?_escapeChar_append (c : Char) (rest : List Char) :
    unescape? (escapeChar c ++ rest) =
      (unescape? rest).map ((if c = '\r' then [] else [c]) ++ ·) := by
  unfold escapeChar
  split
  case h_4 => simp
  case h_7 hbackslash _ _ hreturn _ _ =>
    rw [List.singleton_append, unescape?_cons_of_ne hbackslash, if_neg hreturn]
    rfl
  all_goals rfl

/-- What was escaped is read back, but for carriage returns. -/
theorem unescape?_escapeText (text : String) :
    unescape? (escapeText text).toList = some (text.toList.filter (· ≠ '\r')) := by
  rw [escapeText, String.toList_ofList]
  induction text.toList with
  | nil => rfl
  | cons c chars ih =>
    rw [List.flatMap_cons, unescape?_escapeChar_append, ih, List.filter_cons, Option.map_some]
    split <;> simp_all

/-! ### Protected characters -/

/-- Whether the character at a position is protected: the one before it is a backslash, and that is
not protected itself. -/
def isProtected (text : List Char) : Nat → Bool
  | 0 => false
  | i + 1 => text[i]? == some '\\' && !isProtected text i

/-- A text that can stand between quotes. -/
structure IsSafe (text : List Char) : Prop where
  /-- Quotes and angle brackets are protected. -/
  guarded : ∀ i c, text[i]? = some c → c ∈ ['"', '<', '>'] → isProtected text i = true
  /-- The text is one line. -/
  oneLine : '\n' ∉ text ∧ '\r' ∉ text
  /-- What comes after the text is not protected by it. -/
  closed : isProtected text text.length = false

/-- Protection does not depend on what follows. -/
theorem isProtected_append_of_le {first : List Char} (second : List Char) {i : Nat}
    (h : i ≤ first.length) : isProtected (first ++ second) i = isProtected first i := by
  induction i with
  | zero => rfl
  | succ i ih =>
    rw [isProtected, isProtected, List.getElem?_append_left h, ih (Nat.le_of_succ_le h)]

/-- Behind a text that protects nothing after it, protection begins anew. -/
theorem isProtected_length_add {first : List Char} (h : isProtected first first.length = false)
    (second : List Char) (i : Nat) :
    isProtected (first ++ second) (first.length + i) = isProtected second i := by
  induction i with
  | zero => rw [Nat.add_zero, isProtected_append_of_le second (Nat.le_refl _), h, isProtected]
  | succ i ih =>
    rw [Nat.add_succ, isProtected, isProtected, ih,
      List.getElem?_append_right (Nat.le_add_right _ _), Nat.add_sub_cancel_left]

namespace IsSafe

theorem nil : IsSafe [] where
  guarded := fun i c h => by cases h
  oneLine := ⟨List.not_mem_nil, List.not_mem_nil⟩
  closed := rfl

theorem append {first second : List Char} (hfirst : IsSafe first) (hsecond : IsSafe second) :
    IsSafe (first ++ second) where
  guarded := by
    intro i c hc hmem
    rcases Nat.lt_or_ge i first.length with hi | hi
    · rw [isProtected_append_of_le second (Nat.le_of_lt hi)]
      exact hfirst.guarded i c (by rwa [List.getElem?_append_left hi] at hc) hmem
    -- The first text is closed, so that in the second one protection is what it is by itself.
    · obtain ⟨i, rfl⟩ := Nat.exists_eq_add_of_le hi
      rw [List.getElem?_append_right hi, Nat.add_sub_cancel_left] at hc
      rw [isProtected_length_add hfirst.closed]
      exact hsecond.guarded i c hc hmem
  oneLine := by
    simp only [List.mem_append, not_or]
    exact ⟨⟨hfirst.oneLine.1, hsecond.oneLine.1⟩, hfirst.oneLine.2, hsecond.oneLine.2⟩
  closed := by
    rw [List.length_append, isProtected_length_add hfirst.closed, hsecond.closed]

theorem flatMap {α : Type} {f : α → List Char} (h : ∀ a, IsSafe (f a)) (l : List α) :
    IsSafe (l.flatMap f) := by
  induction l with
  | nil => exact nil
  | cons a l ih => exact (h a).append ih

/-- A character that a backslash protects. -/
theorem pair {c : Char} (hfeed : c ≠ '\n') (hreturn : c ≠ '\r') : IsSafe ['\\', c] where
  guarded := by
    rintro (_ | _ | i) d hd hmem
    · obtain rfl := Option.some.inj hd
      simp at hmem
    · rfl
    · cases hd
  oneLine := by simp [hfeed.symm, hreturn.symm]
  closed := by simp [isProtected]

/-- A character that needs no protection. -/
theorem singleton {c : Char} (h : c ∉ ['\\', '"', '\n', '\r', '<', '>']) : IsSafe [c] where
  guarded := by
    rintro (_ | i) d hd hmem
    · obtain rfl := Option.some.inj hd
      simp_all
    · cases hd
  oneLine := by
    constructor <;> simp_all [eq_comm]
  closed := by simp_all [isProtected]

end IsSafe

theorem isSafe_escapeChar (c : Char) : IsSafe (escapeChar c) := by
  unfold escapeChar
  split
  case h_4 => exact .nil
  case h_7 => exact .singleton (by simp_all)
  all_goals exact .pair (by decide) (by decide)

/-- In what was escaped, nothing special stands unprotected. -/
theorem isSafe_escapeText (text : String) : IsSafe (escapeText text).toList := by
  rw [escapeText, String.toList_ofList]
  exact .flatMap isSafe_escapeChar text.toList

/-- The six replacements, made one after the other, make a text of which the text before can be read
back, but for its carriage returns. In it every quote and every angle bracket is protected by a
backslash that is not protected itself, there are no line ends, and no backslash at its end protects
what comes after it. -/
theorem escapeText_protects (text : String) :
    (escapeText text).toList = replaceEach replacements text.toList ∧
      unescape? (escapeText text).toList = some (text.toList.filter (· ≠ '\r')) ∧
      IsSafe (escapeText text).toList :=
  ⟨toList_escapeText_eq_replaceEach text, unescape?_escapeText text, isSafe_escapeText text⟩

example : unescape? (escapeText "\\\"<\r\n\\").toList = some ['\\', '"', '<', '\n', '\\'] := by
  decide

end FlowGraph.Dot
