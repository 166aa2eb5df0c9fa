import FlowGraph.Dot.Document
import FlowGraph.Proofs.Dot.Reader

/-!
# What is read from the document of a graph

A document is read as the statements that were written, except where a text that is shown in a block
has a backslash before a quote: only the quote is escaped then, and the backslash of the text takes
the protection away from it. In a label, backslashes of the text are taken for those of an escape.
Texts with no backslash other than directly before angle brackets are shown as they are.

## Main definitions

* `Graph.document`: the document that is meant by the text of a graph
* `Dot.protectsQuote`, `Dot.isLegible`: what may go wrong in a text
* `Dot.IsPlain`: texts in which nothing goes wrong

## Main results

* `Dot.marks_lines_eq_iff`: when a label is read as its lines
* `Graph.read_toDot_eq_iff`: when a text is read as the document that is meant
* `Graph.legible_toDot_iff`: when all labels are read as their lines as well
-/

namespace FlowGraph

/-- The node statement that is meant for a block. -/
def Block.drawn (i : BlockId) (block : Block) : Dot.Statement :=
  .node (blockName i)
    [("label", .quoted (Dot.escapeQuotes block.caption)),
      ("shape", .word block.appearance.shape.text), ("fillcolor", .quoted block.appearance.color)]

/-- The edge statement that is meant for an edge. -/
def Edge.drawn (edge : Edge) : Dot.Statement :=
  .edge (blockName edge.source) (blockName edge.target) [("color", .quoted edge.kind.color)]

/-- The statements that are meant to stand before those of the blocks: a title, and how nodes are
drawn. -/
def Dot.preamble (title : Option String) : List Dot.Statement :=
  (title.elim [] fun title =>
    [.setting "label" (.quoted (Dot.escapeText title)), .setting "labelloc" (.word "t")]) ++
  [.node "node" [("style", .word "filled"), ("fontname", .quoted "Courier"),
    ("fontsize", .word "10")]]

/-- The document that is meant by the text of a graph. It has one statement for each reachable block
in depth-first order, and one for each edge out of such a block, by source and slot. -/
def Graph.document (g : Graph) (title : Option String) : Dot.Document where
  name := "CFG"
  statements := Dot.preamble title ++
    g.reachable.filterMap (fun i => (g.block? i).map (Block.drawn i)) ++ g.edges.map Edge.drawn

namespace Dot

/-! ### Lines of a label -/

/-- Whether a label has a backslash written before a character. -/
def isEscaped (c : Char) : Bool :=
  c = '<' || c = '>' || c = '"'

/-- How a character is written in a label. -/
def labelChar (c : Char) : List Char :=
  if isEscaped c then ['\\', c] else [c]

/-- How a text is written as a line of a label. -/
def labelLine (text : List Char) : List Char :=
  text.flatMap labelChar ++ ['\\', 'l']

theorem toList_escapeQuotes_captionLine (text : String) :
    (escapeQuotes (captionLine text)).toList = labelLine text.toList := by
  have hchar (c : Char) : ((if c = '<' ∨ c = '>' then ['\\', c] else [c]).flatMap fun c =>
      if c = '"' then ['\\', c] else [c]) = labelChar c := by
    by_cases hangle : c = '<' ∨ c = '>'
    · rcases hangle with rfl | rfl <;> rfl
    · by_cases hquote : c = '"'
      · subst hquote
        rfl
      · simp_all [labelChar, isEscaped]
  rw [escapeQuotes, captionLine, escapeAngles, String.toList_ofList, String.toList_append,
    String.toList_ofList, List.flatMap_append, List.flatMap_assoc, labelLine]
  congr 1
  exact List.flatMap_congr fun c _ => hchar c

/-- A label is written line by line. -/
theorem toList_escapeQuotes_caption (block : Block) :
    (escapeQuotes block.caption).toList =
      (block.captionTexts.map String.toList).flatMap labelLine := by
  have hjoin (texts : List String) : (escapeQuotes (String.join texts)).toList =
      texts.flatMap fun text => (escapeQuotes text).toList := by
    rw [escapeQuotes, String.toList_ofList, String.toList_join, List.flatMap_assoc]
    refine List.flatMap_congr fun text _ => ?_
    rw [escapeQuotes, String.toList_ofList]
  rw [Block.caption, hjoin, List.flatMap_map, List.flatMap_map]
  exact List.flatMap_congr fun text _ => toList_escapeQuotes_captionLine text

/-- Whether a backslash protects a quote in a text, if it protects the character after it. -/
def protectsQuote : List Char → Bool
  | '\\' :: c :: rest => c == '"' || protectsQuote rest
  | _ :: rest => protectsQuote rest
  | [] => false

/-- Whether every backslash of a text stands directly before a character that is escaped. -/
def isLegible : List Char → Bool
  | '\\' :: c :: rest => isEscaped c && isLegible rest
  | c :: rest => c != '\\' && isLegible rest
  | [] => true

/-- Every backslash of a text stands directly before an angle bracket. -/
def IsPlain (text : List Char) : Prop :=
  ∀ before after, text = before ++ '\\' :: after →
    after.head? = some '<' ∨ after.head? = some '>'

section Text

variable {c : Char} {text rest : List Char}

theorem protectsQuote_cons_of_ne (h : c ≠ '\\') (rest : List Char) :
    protectsQuote (c :: rest) = protectsQuote rest := by
  cases rest <;> simp [protectsQuote, h]

theorem isLegible_cons_of_ne (h : c ≠ '\\') (rest : List Char) :
    isLegible (c :: rest) = isLegible rest := by
  cases rest <;> rw [isLegible, bne_iff_ne.2 h, Bool.true_and] <;> simp [h]

theorem isPlain_nil : IsPlain [] := by
  intro before after h
  cases before <;> cases h

theorem isPlain_cons : IsPlain (c :: text) ↔
    (c = '\\' → text.head? = some '<' ∨ text.head? = some '>') ∧ IsPlain text := by
  constructor
  · intro h
    refine ⟨fun hc => h [] text (by rw [hc, List.nil_append]), fun before after htext => ?_⟩
    exact h (c :: before) after (by rw [htext, List.cons_append])
  · rintro ⟨hc, htext⟩ before after h
    cases before with
    | nil =>
      obtain ⟨rfl, rfl⟩ := List.cons.inj h
      exact hc rfl
    | cons first before =>
      exact htext before after (List.cons.inj h).2

/-- A text is taken apart by its backslashes: each one protects the character after it. -/
@[elab_as_elim] theorem backslash_induction {motive : List Char → Prop} (nil : motive [])
    (last : motive ['\\']) (pair : ∀ c rest, motive rest → motive ('\\' :: c :: rest))
    (cons : ∀ c rest, c ≠ '\\' → motive rest → motive (c :: rest)) (text : List Char) :
    motive text := by
  fun_induction protectsQuote text with
  | case1 c rest ih => exact pair c rest ih
  | case2 c rest hshape ih =>
    by_cases hc : c = '\\'
    · cases rest with
      | nil => exact hc ▸ last
      | cons c' rest => exact absurd rfl (hshape c' rest hc)
    · exact cons c rest hc ih
  | case3 => exact nil

/-- A text is plain if no backslash protects a quote and all stand before characters that are
escaped. -/
theorem isPlain_iff : IsPlain text ↔ protectsQuote text = false ∧ isLegible text = true := by
  induction text using backslash_induction with
  | nil => exact ⟨fun _ => ⟨rfl, rfl⟩, fun _ => isPlain_nil⟩
  | last =>
    rw [isPlain_cons]
    simp [isLegible]
  | pair c rest ih =>
    rw [isPlain_cons, isPlain_cons, ih, protectsQuote, isLegible, List.head?_cons]
    by_cases hangle : c = '<' ∨ c = '>'
    · rcases hangle with rfl | rfl <;> simp [isEscaped]
    · by_cases hquote : c = '"' <;> simp_all [isEscaped]
  | cons c rest hc ih =>
    rw [isPlain_cons, ih, protectsQuote_cons_of_ne hc, isLegible_cons_of_ne hc]
    exact and_iff_right fun h => absurd h hc

theorem labelLine_cons (c : Char) (text : List Char) :
    labelLine (c :: text) = labelChar c ++ labelLine text := by
  rw [labelLine, List.flatMap_cons, List.append_assoc, labelLine]

theorem labelChar_of_isEscaped (h : isEscaped c = true) : labelChar c = ['\\', c] := if_pos h

theorem labelChar_of_not (h : isEscaped c = false) : labelChar c = [c] := by
  rw [labelChar, h]
  rfl

theorem ne_of_isEscaped (h : isEscaped c = true) : c ≠ '\\' ∧ c ≠ 'l' := by
  constructor
  · rintro rfl
    cases h
  · rintro rfl
    cases h

/-- A line in which no backslash protects a quote leaves quotes after it as they are. -/
theorem isEnclosed_labelLine (h : protectsQuote text = false) (rest : List Char) :
    isEnclosed (labelLine text ++ rest) = isEnclosed rest := by
  induction text using backslash_induction with
  | nil => rfl
  | last => rfl
  | pair c text ih =>
    rw [protectsQuote, Bool.or_eq_false_iff, beq_eq_false_iff_ne] at h
    rw [labelLine_cons, labelLine_cons]
    cases hc : isEscaped c with
    | true =>
      rw [labelChar_of_isEscaped hc]
      change isEnclosed (c :: (labelLine text ++ rest)) = isEnclosed rest
      rw [isEnclosed_cons_of_ne (ne_of_isEscaped hc).1, bne_iff_ne.2 h.1, Bool.true_and, ih h.2]
    | false =>
      rw [labelChar_of_not hc]
      exact ih h.2
  | cons c text hc ih =>
    rw [protectsQuote_cons_of_ne hc] at h
    rw [labelLine_cons]
    cases hescaped : isEscaped c with
    | true =>
      rw [labelChar_of_isEscaped hescaped]
      exact ih h
    | false =>
      have hquote : c ≠ '"' := by
        rintro rfl
        cases hescaped
      rw [labelChar_of_not hescaped]
      change isEnclosed (c :: (labelLine text ++ rest)) = isEnclosed rest
      rw [isEnclosed_cons_of_ne hc, bne_iff_ne.2 hquote, Bool.true_and, ih h]

/-- A quote of the text ends the line if a backslash of the text protects it. -/
theorem exists_quote_of_protectsQuote (h : protectsQuote text = true) :
    ∃ before after, labelLine text = before ++ '"' :: after ∧ isEnclosed before = true := by
  induction text using backslash_induction with
  | nil => cases h
  | last => cases h
  | pair c text ih =>
    rw [labelLine_cons, labelLine_cons]
    by_cases hquote : c = '"'
    -- The backslash that was written before the quote is protected itself.
    · subst hquote
      exact ⟨['\\', '\\'], labelLine text, rfl, rfl⟩
    · rw [protectsQuote, Bool.or_eq_true, beq_iff_eq] at h
      obtain ⟨before, after, heq, hbefore⟩ := ih (h.resolve_left hquote)
      rw [heq]
      cases hc : isEscaped c with
      | true =>
        refine ⟨'\\' :: '\\' :: c :: before, after, ?_, ?_⟩
        · rw [labelChar_of_isEscaped hc]
          rfl
        · change isEnclosed (c :: before) = true
          rw [isEnclosed_cons_of_ne (ne_of_isEscaped hc).1, bne_iff_ne.2 hquote, hbefore]
          rfl
      | false =>
        refine ⟨'\\' :: c :: before, after, ?_, hbefore⟩
        rw [labelChar_of_not hc]
        rfl
  | cons c text hc ih =>
    rw [protectsQuote_cons_of_ne hc] at h
    obtain ⟨before, after, heq, hbefore⟩ := ih h
    refine ⟨labelChar c ++ before, after, ?_, ?_⟩
    · rw [labelLine_cons, heq, List.append_assoc]
    · cases hescaped : isEscaped c with
      | true =>
        rw [labelChar_of_isEscaped hescaped]
        exact hbefore
      | false =>
        have hquote : c ≠ '"' := by
          rintro rfl
          cases hescaped
        rw [labelChar_of_not hescaped]
        change isEnclosed (c :: before) = true
        rw [isEnclosed_cons_of_ne hc, bne_iff_ne.2 hquote, hbefore]
        rfl

/-! ### What a label shows -/

/-- The marks of a line of text. -/
def lineMarks (text : List Char) : List Mark :=
  text.map .char ++ [.lineEnd]

theorem marks_escaped (hc : isEscaped c = true) (rest : List Char) :
    marks ('\\' :: c :: rest) = .char c :: marks rest := by
  rw [marks, if_neg (ne_of_isEscaped hc).2]

/-- A character without a backslash before it is shown. -/
theorem marks_labelChar (hc : c ≠ '\\') (rest : List Char) :
    marks (labelChar c ++ rest) = .char c :: marks rest := by
  cases hescaped : isEscaped c with
  | true =>
    rw [labelChar_of_isEscaped hescaped]
    exact marks_escaped hescaped rest
  | false =>
    rw [labelChar_of_not hescaped]
    exact marks_cons_of_ne hc rest

/-- A line whose backslashes all stand before characters that are escaped is shown. -/
theorem marks_labelLine (h : isLegible text = true) (rest : List Char) :
    marks (labelLine text ++ rest) = lineMarks text ++ marks rest := by
  induction text using backslash_induction with
  | nil => rfl
  | last => cases h
  | pair c text ih =>
    rw [isLegible, Bool.and_eq_true] at h
    rw [labelLine_cons, labelLine_cons, labelChar_of_isEscaped h.1]
    change .char '\\' :: marks (c :: (labelLine text ++ rest)) = _
    rw [marks_cons_of_ne (ne_of_isEscaped h.1).1, ih h.2]
    rfl
  | cons c text hc ih =>
    rw [isLegible_cons_of_ne hc] at h
    rw [labelLine_cons, List.append_assoc, marks_labelChar hc, ih h]
    rfl

/-- A line never shows more than its text. -/
theorem length_marks_labelLine (text rest : List Char) :
    (marks (labelLine text ++ rest)).length ≤ (lineMarks text ++ marks rest).length := by
  induction text using backslash_induction with
  | nil => exact Nat.le_refl _
  | last =>
    change (marks ('\\' :: '\\' :: 'l' :: rest)).length ≤ _
    rw [marks, marks_cons_of_ne (by decide)]
    exact Nat.le_refl _
  | pair c text ih =>
    rw [labelLine_cons, labelLine_cons]
    cases hc : isEscaped c with
    | true =>
      rw [labelChar_of_isEscaped hc]
      change (.char '\\' :: marks (c :: (labelLine text ++ rest))).length ≤ _
      rw [marks_cons_of_ne (ne_of_isEscaped hc).1]
      exact Nat.succ_le_succ (Nat.succ_le_succ ih)
    | false =>
      rw [labelChar_of_not hc]
      change (marks ('\\' :: c :: (labelLine text ++ rest))).length ≤ _
      rw [marks]
      exact Nat.succ_le_succ (Nat.le_succ_of_le ih)
  | cons c text hc ih =>
    rw [labelLine_cons, List.append_assoc, marks_labelChar hc]
    exact Nat.succ_le_succ ih

/-- If a line is shown, followed by no less than what comes after it, then all of its backslashes
stand before characters that are escaped. -/
theorem isLegible_of_marks_labelLine {shown : List Mark}
    (hlength : (marks rest).length ≤ shown.length)
    (h : marks (labelLine text ++ rest) = lineMarks text ++ shown) :
    isLegible text = true ∧ marks rest = shown := by
  induction text using backslash_induction with
  | nil => exact ⟨rfl, (List.cons.inj h).2⟩
  | last =>
    -- The backslash that was written for the line end is protected by the one of the text.
    change marks ('\\' :: '\\' :: 'l' :: rest) = _ at h
    rw [marks, marks_cons_of_ne (by decide)] at h
    cases (List.cons.inj (List.cons.inj h).2).1
  | pair c text ih =>
    rw [labelLine_cons, labelLine_cons] at h
    cases hc : isEscaped c with
    | true =>
      rw [labelChar_of_isEscaped hc] at h
      change .char '\\' :: marks (c :: (labelLine text ++ rest)) = _ at h
      rw [marks_cons_of_ne (ne_of_isEscaped hc).1] at h
      obtain ⟨hlegible, hrest⟩ := ih (List.cons.inj (List.cons.inj h).2).2
      exact ⟨by rw [isLegible, hc, hlegible]; rfl, hrest⟩
    | false =>
      -- Two characters of the text show as one mark, which nothing after them makes up for.
      rw [labelChar_of_not hc] at h
      change marks ('\\' :: c :: (labelLine text ++ rest)) = _ at h
      have hle := length_marks_labelLine text rest
      have heq := congrArg List.length h
      rw [marks] at heq
      simp only [lineMarks, List.length_append, List.length_map, List.length_cons] at heq hle
      omega
  | cons c text hc ih =>
    rw [labelLine_cons, List.append_assoc, marks_labelChar hc] at h
    obtain ⟨hlegible, hrest⟩ := ih (List.cons.inj h).2
    exact ⟨by rw [isLegible_cons_of_ne hc, hlegible], hrest⟩

/-- Lines are shown if all backslashes stand before characters that are escaped. -/
theorem marks_lines_eq_iff {texts : List (List Char)} :
    marks (texts.flatMap labelLine) = texts.flatMap lineMarks ↔
      ∀ text ∈ texts, isLegible text = true := by
  have hlength (texts : List (List Char)) :
      (marks (texts.flatMap labelLine)).length ≤ (texts.flatMap lineMarks).length := by
    induction texts with
    | nil => exact Nat.le_refl _
    | cons text texts ih =>
      have hle := length_marks_labelLine text (texts.flatMap labelLine)
      rw [List.flatMap_cons, List.flatMap_cons]
      rw [List.length_append] at hle ⊢
      omega
  induction texts with
  | nil => exact ⟨fun _ => nofun, fun _ => rfl⟩
  | cons text texts ih =>
    rw [List.flatMap_cons, List.flatMap_cons, List.forall_mem_cons]
    constructor
    · intro h
      obtain ⟨hlegible, hrest⟩ := isLegible_of_marks_labelLine (hlength texts) h
      exact ⟨hlegible, ih.1 hrest⟩
    · intro h
      rw [marks_labelLine h.1, ih.2 h.2]

end Text

/-! ### Reading what was written -/

/-- Digits may stand in a word. -/
theorem isOrdinary_of_isDigit {c : Char} (h : c.isDigit = true) : isOrdinary c = true := by
  have hbounds : 48 ≤ c.toNat ∧ c.toNat ≤ 57 := by
    simp only [Char.isDigit, Bool.and_eq_true, decide_eq_true_eq, ge_iff_le,
      UInt32.le_iff_toNat_le] at h
    exact h
  have hdigits : ∀ n : Fin 58, 48 ≤ n.val → isOrdinary (Char.ofNat n) = true := by decide
  rw [← Char.ofNat_toNat c]
  exact hdigits ⟨c.toNat, Nat.lt_succ_of_le hbounds.2⟩ hbounds.1

/-- No quote in a title is left without protection. -/
theorem isEnclosed_escapeText (text : String) : isEnclosed (escapeText text).toList = true := by
  have hchar (c : Char) : isEnclosed (escapeChar c) = true := by
    unfold escapeChar
    split <;> try rfl
    rename_i hbackslash hquote _ _ _ _
    rw [isEnclosed_cons_of_ne hbackslash, bne_iff_ne.2 hquote]
    rfl
  rw [escapeText, String.toList_ofList]
  induction text.toList with
  | nil => rfl
  | cons c text ih => rw [List.flatMap_cons, isEnclosed_append (hchar c), ih]

theorem isEnclosed_color (block : Block) : isEnclosed block.appearance.color.toList = true := by
  unfold Block.appearance
  dsimp only
  split
  · rfl
  · cases block.color <;> rfl

namespace Lexer

variable {tokens all shown : List Token} {i : BlockId} {block : Block}

theorem run_blockName (i : BlockId) :
    run ⟨.between, tokens⟩ (blockName i).toList =
      ⟨.word (blockName i).toList.reverse, tokens⟩ := by
  have hname : (blockName i).toList = 'B' :: Nat.toDigits 10 i := by
    change ("B" ++ Nat.repr i).toList = _
    rw [String.toList_append, Nat.toList_repr]
    rfl
  have hdigits : ∀ c ∈ Nat.toDigits 10 i, isOrdinary c = true := fun c hc =>
    isOrdinary_of_isDigit (Nat.isDigit_of_mem_toDigits (by decide) (by decide) hc)
  rw [hname, List.reverse_cons]
  change run ⟨.word ['B'], tokens⟩ (Nat.toDigits 10 i) = _
  exact run_word hdigits

theorem run_indent : run ⟨.between, tokens⟩ "    ".toList = ⟨.between, tokens⟩ := rfl

/-- The part of a node statement before the label. -/
theorem run_beforeLabel (i : BlockId) :
    run ⟨.between, tokens⟩ ("    " ++ blockName i ++ " [label=\"").toList =
      ⟨.quoted [], .symbol .equals :: .value (.word "label") :: .symbol .openBracket ::
        .value (.word (blockName i)) :: tokens⟩ := by
  have hend (chars : List Char) : run ⟨.word chars, tokens⟩ " [label=\"".toList =
      ⟨.quoted [], .symbol .equals :: .value (.word "label") :: .symbol .openBracket ::
        .value (.word (.ofList chars.reverse)) :: tokens⟩ := rfl
  rw [String.toList_append, String.toList_append, run_append, run_append, run_indent,
    run_blockName, hend, List.reverse_reverse, String.ofList_toList]

/-- A quoted text is read up to the quote that ends it. -/
theorem run_quote {text : String} (h : isEnclosed text.toList = true) (rest : List Char) :
    run ⟨.quoted [], tokens⟩ (text.toList ++ '"' :: rest) =
      run ⟨.between, .value (.quoted text) :: tokens⟩ rest := by
  rw [run_append, run_quoted h, List.append_nil]
  change run ⟨.between, .value (.quoted (.ofList text.toList.reverse.reverse)) :: tokens⟩ rest = _
  rw [List.reverse_reverse, String.ofList_toList]

/-- The part of a node statement after the label. -/
theorem run_afterLabel (block : Block) :
    run ⟨.between, tokens⟩ (", shape=" ++ block.appearance.shape.text ++ ", fillcolor=\"" ++
        block.appearance.color ++ "\"];\n").toList =
      ⟨.between, .symbol .semicolon :: .symbol .closeBracket ::
        .value (.quoted block.appearance.color) :: .symbol .equals :: .value (.word "fillcolor") ::
        .symbol .comma :: .value (.word block.appearance.shape.text) :: .symbol .equals ::
        .value (.word "shape") :: .symbol .comma :: tokens⟩ := by
  have hshape (shape : Shape) :
      run ⟨.between, tokens⟩ (", shape=" ++ shape.text ++ ", fillcolor=\"").toList =
        ⟨.quoted [], .symbol .equals :: .value (.word "fillcolor") :: .symbol .comma ::
          .value (.word shape.text) :: .symbol .equals :: .value (.word "shape") ::
          .symbol .comma :: tokens⟩ := by
    cases shape <;> rfl
  have hend : "\"];\n".toList = '"' :: "];\n".toList := rfl
  rw [String.toList_append, String.toList_append, List.append_assoc, run_append, hshape, hend,
    run_quote (isEnclosed_color block)]
  rfl

theorem toList_nodeStatement (i : BlockId) (block : Block) :
    (nodeStatement i block.appearance).toList =
      ("    " ++ blockName i ++ " [label=\"").toList ++ (escapeQuotes block.caption).toList ++
        '"' :: (", shape=" ++ block.appearance.shape.text ++ ", fillcolor=\"" ++
          block.appearance.color ++ "\"];\n").toList := by
  have hend : "\", shape=".toList = '"' :: ", shape=".toList := rfl
  simp only [nodeStatement, String.toList_append, hend, List.append_assoc, List.cons_append]
  rfl

/-- A node statement is read as the one that is meant if no backslash of a text protects a quote. -/
theorem run_nodeStatement
    (h : ∀ text ∈ block.captionTexts, protectsQuote text.toList = false) :
    run ⟨.between, tokens⟩ (nodeStatement i block.appearance).toList =
      ⟨.between, (block.drawn i).ended.reverse ++ tokens⟩ := by
  have henclosed : isEnclosed (escapeQuotes block.caption).toList = true := by
    have hlines (texts : List (List Char)) (h : ∀ text ∈ texts, protectsQuote text = false) :
        isEnclosed (texts.flatMap labelLine) = true := by
      induction texts with
      | nil => rfl
      | cons text texts ih =>
        obtain ⟨htext, htexts⟩ := List.forall_mem_cons.1 h
        rw [List.flatMap_cons, isEnclosed_labelLine htext, ih htexts]
    rw [toList_escapeQuotes_caption]
    exact hlines _ (List.forall_mem_map.2 h)
  rw [toList_nodeStatement, List.append_assoc, run_append, run_beforeLabel, run_quote henclosed,
    run_afterLabel]
  rfl

/-- A node statement in which a backslash of a text protects a quote is not read as the one that is
meant. -/
theorem protectsQuote_eq_false_of_run {rest : List Char}
    (h : (run ⟨.between, tokens⟩ ((nodeStatement i block.appearance).toList ++ rest)).finish =
      some all)
    (hall : all = tokens.reverse ++ (block.drawn i).ended ++ shown) :
    ∀ text ∈ block.captionTexts, protectsQuote text.toList = false := by
  by_contra hbad
  have hquote : ∃ before after, (escapeQuotes block.caption).toList = before ++ '"' :: after ∧
      isEnclosed before = true := by
    have hlines (texts : List (List Char)) (h : ¬∀ text ∈ texts, protectsQuote text = false) :
        ∃ before after, texts.flatMap labelLine = before ++ '"' :: after ∧
          isEnclosed before = true := by
      induction texts with
      | nil => exact absurd nofun h
      | cons text texts ih =>
        rw [List.forall_mem_cons] at h
        cases htext : protectsQuote text with
        | true =>
          obtain ⟨before, after, heq, hbefore⟩ := exists_quote_of_protectsQuote htext
          refine ⟨before, after ++ texts.flatMap labelLine, ?_, hbefore⟩
          rw [List.flatMap_cons, heq, List.append_assoc, List.cons_append]
        | false =>
          obtain ⟨before, after, heq, hbefore⟩ := ih fun htexts => h ⟨htext, htexts⟩
          refine ⟨labelLine text ++ before, after, ?_, ?_⟩
          · rw [List.flatMap_cons, heq, List.append_assoc]
          · rw [isEnclosed_labelLine htext, hbefore]
    rw [toList_escapeQuotes_caption]
    exact hlines _ fun h => hbad (List.forall_mem_map.1 h)
  obtain ⟨before, after, heq, hbefore⟩ := hquote
  -- The quoted text that is read is shorter than the label that was written.
  have hread : (.ofList before : String) ≠ escapeQuotes block.caption := by
    intro hsame
    have hlength := congrArg List.length (congrArg String.toList hsame)
    rw [String.toList_ofList, heq, List.length_append, List.length_cons] at hlength
    omega
  have htext : isEnclosed (String.ofList before).toList = true := by
    rw [String.toList_ofList]
    exact hbefore
  rw [toList_nodeStatement, heq, List.append_assoc, List.append_assoc, List.append_assoc,
    run_append, run_beforeLabel, ← String.toList_ofList (l := before), List.cons_append,
    run_quote htext] at h
  obtain ⟨later, hlater⟩ := prefix_of_finish_run h
  rw [hall] at hlater
  simp only [List.reverse_cons, List.append_assoc] at hlater
  have hcancel := List.append_cancel_left hlater
  simp only [Statement.ended, Block.drawn, Statement.tokens, attributeTokens, List.cons_append,
    List.nil_append, List.cons.injEq, Token.value.injEq, Value.quoted.injEq, true_and] at hcancel
  exact hread hcancel.1

/-- An edge statement is read as the one that is meant. -/
theorem run_edgeStatement (edge : Edge) :
    run ⟨.between, tokens⟩ (edgeStatement edge).toList =
      ⟨.between, edge.drawn.ended.reverse ++ tokens⟩ := by
  have harrow (chars : List Char) (tokens : List Token) :
      run ⟨.word chars, tokens⟩ " -> ".toList = ⟨.between, .symbol .greater :: .symbol .dash ::
        .value (.word (.ofList chars.reverse)) :: tokens⟩ := rfl
  have hcolor (kind : EdgeKind) (chars : List Char) (tokens : List Token) :
      run ⟨.word chars, tokens⟩ (" [color=\"" ++ kind.color ++ "\"];\n").toList =
        ⟨.between, .symbol .semicolon :: .symbol .closeBracket :: .value (.quoted kind.color) ::
          .symbol .equals :: .value (.word "color") :: .symbol .openBracket ::
          .value (.word (.ofList chars.reverse)) :: tokens⟩ := by
    cases kind <;> rfl
  have htext : (edgeStatement edge).toList = "    ".toList ++ (blockName edge.source).toList ++
      " -> ".toList ++ (blockName edge.target).toList ++
        (" [color=\"" ++ edge.kind.color ++ "\"];\n").toList := by
    simp only [edgeStatement, String.toList_append, List.append_assoc]
  rw [htext, run_append, run_append, run_append, run_append, run_indent, run_blockName, harrow,
    run_blockName, hcolor, List.reverse_reverse, String.ofList_toList, List.reverse_reverse,
    String.ofList_toList]
  rfl

/-- What stands before the statements of the blocks is read as it is meant. -/
theorem run_title (title : Option String) :
    run {} ("strict digraph CFG \x7b\n" ++ title.elim "" titleStatements ++
        "    node [style=filled, fontname=\"Courier\", fontsize=10];\n\n").toList =
      ⟨.between, (openingTokens "CFG" ++ (preamble title).flatMap Statement.ended).reverse⟩ := by
  have hopen : run {} "strict digraph CFG \x7b\n".toList = ⟨.between, [.symbol .openBrace,
      .value (.word "CFG"), .value (.word "digraph"), .value (.word "strict")]⟩ := rfl
  have hnode (tokens : List Token) :
      run ⟨.between, tokens⟩
          "    node [style=filled, fontname=\"Courier\", fontsize=10];\n\n".toList =
        ⟨.between, (Statement.node "node" [("style", .word "filled"),
          ("fontname", .quoted "Courier"), ("fontsize", .word "10")]).ended.reverse ++ tokens⟩ :=
    rfl
  rw [String.toList_append, String.toList_append, run_append, run_append, hopen]
  cases title with
  | none =>
    change run ⟨.between, _⟩ _ = _
    rw [hnode]
    rfl
  | some title =>
    have hlabel (tokens : List Token) : run ⟨.between, tokens⟩ "    label=\"".toList =
        ⟨.quoted [], .symbol .equals :: .value (.word "label") :: tokens⟩ := rfl
    have hend : "\";\n    labelloc=t;\n".toList = '"' :: ";\n    labelloc=t;\n".toList := rfl
    have hloc (tokens : List Token) : run ⟨.between, tokens⟩ ";\n    labelloc=t;\n".toList =
        ⟨.between, .symbol .semicolon :: .value (.word "t") :: .symbol .equals ::
          .value (.word "labelloc") :: .symbol .semicolon :: tokens⟩ := rfl
    have htitle (tokens : List Token) :
        run (run ⟨.quoted [], tokens⟩ (escapeText title).toList) "\";\n    labelloc=t;\n".toList =
          ⟨.between, .symbol .semicolon :: .value (.word "t") :: .symbol .equals ::
            .value (.word "labelloc") :: .symbol .semicolon ::
            .value (.quoted (escapeText title)) :: tokens⟩ := by
      rw [← run_append, hend, run_quote (isEnclosed_escapeText title), hloc]
    rw [Option.elim_some, titleStatements, String.toList_append, String.toList_append, run_append,
      run_append, hlabel, htitle, hnode]
    rfl

end Lexer

end Dot

namespace Graph

open Dot

variable (g : Graph) (title : Option String)

/-- The text of a graph, part by part. -/
theorem toList_toDot : (g.toDot title).toList =
    ("strict digraph CFG \x7b\n" ++ title.elim "" titleStatements ++
      "    node [style=filled, fontname=\"Courier\", fontsize=10];\n\n").toList ++
    ((g.reachable.flatMap fun i => (g.block? i).elim [] fun block =>
      (nodeStatement i block.appearance).toList) ++
    ("\n".toList ++ ((g.edges.flatMap fun edge => (edgeStatement edge).toList) ++
      "\x7d\n".toList))) := by
  have hnodes : (String.join (g.reachable.map fun i => (g.block? i).elim "" fun block =>
      nodeStatement i block.appearance)).toList =
        g.reachable.flatMap fun i => (g.block? i).elim [] fun block =>
          (nodeStatement i block.appearance).toList := by
    rw [String.toList_join, List.flatMap_map]
    refine List.flatMap_congr fun i _ => ?_
    cases g.block? i with
    | none => rfl
    | some block => rw [Option.elim_some, Option.elim_some]
  have hedges : (String.join (g.edges.map edgeStatement)).toList =
      g.edges.flatMap fun edge => (edgeStatement edge).toList := by
    rw [String.toList_join, List.flatMap_map]
  unfold toDot
  rw [String.toList_append, String.toList_append, String.toList_append, String.toList_append,
    List.append_assoc, List.append_assoc, List.append_assoc, hnodes, hedges]

/-- Edge statements, and what follows them, are read as they are meant. -/
theorem run_edges (edges : List Edge) (tokens : List Token) :
    Lexer.run ⟨.between, tokens⟩ ("\n".toList ++ ((edges.flatMap fun edge =>
        (edgeStatement edge).toList) ++ "\x7d\n".toList)) =
      ⟨.between, .symbol .closeBrace :: ((edges.map Edge.drawn).flatMap Statement.ended).reverse ++
        tokens⟩ := by
  have hbreak : Lexer.run ⟨.between, tokens⟩ "\n".toList = ⟨.between, tokens⟩ := rfl
  rw [Lexer.run_append, hbreak]
  clear hbreak
  induction edges generalizing tokens with
  | nil => rfl
  | cons edge edges ih =>
    rw [List.flatMap_cons, List.append_assoc, Lexer.run_append, Lexer.run_edgeStatement, ih,
      List.map_cons, List.flatMap_cons, List.reverse_append, List.cons_append, List.cons_append,
      List.append_assoc]

/-- Node statements are read as they are meant if no backslash of a text protects a quote. -/
theorem run_nodes {ids : List BlockId} (tokens : List Token)
    (h : ∀ i ∈ ids, ∀ block, g.block? i = some block →
      ∀ text ∈ block.captionTexts, protectsQuote text.toList = false) :
    Lexer.run ⟨.between, tokens⟩ (ids.flatMap fun i => (g.block? i).elim [] fun block =>
        (nodeStatement i block.appearance).toList) =
      ⟨.between, ((ids.filterMap fun i => (g.block? i).map (Block.drawn i)).flatMap
        Statement.ended).reverse ++ tokens⟩ := by
  induction ids generalizing tokens with
  | nil => rfl
  | cons i ids ih =>
    obtain ⟨hi, hids⟩ := List.forall_mem_cons.1 h
    rw [List.flatMap_cons, Lexer.run_append]
    cases hblock : g.block? i with
    | none =>
      rw [List.filterMap_cons_none (by rw [hblock, Option.map_none])]
      exact ih tokens hids
    | some block =>
      rw [List.filterMap_cons_some (by rw [hblock, Option.map_some]), Option.elim_some,
        Lexer.run_nodeStatement (hi block hblock), ih _ hids, List.flatMap_cons,
        List.reverse_append, List.append_assoc]

/-- They are not if some backslash of a text does. -/
theorem protectsQuote_eq_false_of_run_nodes {ids : List BlockId} {rest : List Char}
    {tokens all shown : List Token}
    (h : (Lexer.run ⟨.between, tokens⟩ ((ids.flatMap fun i => (g.block? i).elim [] fun block =>
      (nodeStatement i block.appearance).toList) ++ rest)).finish = some all)
    (hall : all = tokens.reverse ++ (ids.filterMap fun i =>
      (g.block? i).map (Block.drawn i)).flatMap Statement.ended ++ shown) :
    ∀ i ∈ ids, ∀ block, g.block? i = some block →
      ∀ text ∈ block.captionTexts, protectsQuote text.toList = false := by
  induction ids generalizing tokens with
  | nil => exact nofun
  | cons i ids ih =>
    rw [List.flatMap_cons, List.append_assoc] at h
    cases hblock : g.block? i with
    | none =>
      rw [hblock] at h
      rw [List.filterMap_cons_none (by rw [hblock, Option.map_none])] at hall
      refine List.forall_mem_cons.2 ⟨fun block hsome => ?_, ih h hall⟩
      cases hblock.symm.trans hsome
    | some block =>
      rw [hblock, Option.elim_some] at h
      rw [List.filterMap_cons_some (by rw [hblock, Option.map_some]), List.flatMap_cons] at hall
      rw [← List.append_assoc, List.append_assoc] at hall
      have hgood := Lexer.protectsQuote_eq_false_of_run h hall
      refine List.forall_mem_cons.2 ⟨fun block' hsome => ?_, ?_⟩
      · obtain rfl := Option.some.inj (hblock.symm.trans hsome)
        exact hgood
      -- The reader goes on after the statement.
      · rw [Lexer.run_append, Lexer.run_nodeStatement hgood] at h
        rw [← List.append_assoc] at hall
        refine ih h (hall.trans ?_)
        rw [List.reverse_append, List.reverse_reverse]

variable {g title}

theorem isFilled_of_mem_document {statement : Statement}
    (h : statement ∈ (g.document title).statements) : statement.IsFilled := by
  rcases List.mem_append.1 h with h | h
  · rcases List.mem_append.1 h with h | h
    · cases title with
      | none =>
        obtain rfl := List.mem_singleton.1 h
        exact List.cons_ne_nil _ _
      | some title =>
        obtain rfl | rfl | rfl : statement = _ ∨ statement = _ ∨ statement = _ := by
          simpa [preamble] using h
        · trivial
        · trivial
        · exact List.cons_ne_nil _ _
    · obtain ⟨i, -, hblock⟩ := List.mem_filterMap.1 h
      obtain ⟨block, -, rfl⟩ := Option.map_eq_some_iff.1 hblock
      exact List.cons_ne_nil _ _
  · obtain ⟨edge, -, rfl⟩ := List.mem_map.1 h
    exact List.cons_ne_nil _ _

/-- The text of a graph is read as the document that is meant if and only if no backslash of a text
that is shown protects a quote. -/
theorem read_toDot_iff : read (g.toDot title) = some (g.document title) ↔
    ∀ block ∈ g.reachableBlocks, ∀ text ∈ block.captionTexts,
      protectsQuote text.toList = false := by
  have hblocks : (∀ block ∈ g.reachableBlocks, ∀ text ∈ block.captionTexts,
      protectsQuote text.toList = false) ↔ ∀ i ∈ g.reachable, ∀ block, g.block? i = some block →
        ∀ text ∈ block.captionTexts, protectsQuote text.toList = false := by
    rw [reachableBlocks, List.forall_mem_filterMap]
  have htokens : (g.document title).tokens = (openingTokens "CFG" ++
      (preamble title).flatMap Statement.ended) ++ (g.reachable.filterMap fun i =>
        (g.block? i).map (Block.drawn i)).flatMap Statement.ended ++
          ((g.edges.map Edge.drawn).flatMap Statement.ended ++ [.symbol .closeBrace]) := by
    simp only [Document.tokens, document, List.flatMap_append, List.append_assoc]
  rw [read_eq_some_iff, and_iff_right fun _ => isFilled_of_mem_document, tokens?, toList_toDot,
    Lexer.run_append, Lexer.run_title, hblocks]
  constructor
  · intro h
    rw [← List.reverse_reverse (openingTokens "CFG" ++ _)] at htokens
    exact g.protectsQuote_eq_false_of_run_nodes h htokens
  · intro h
    rw [Lexer.run_append, g.run_nodes _ h, run_edges, htokens]
    simp only [Lexer.finish, List.reverse_append, List.reverse_reverse, List.reverse_cons,
      List.append_assoc, List.cons_append]

/-- Whoever reads the text of a graph finds what is meant: the statements of the document, and in
the label of each block its lines. -/
structure ReadsBack (g : Graph) (title : Option String) : Prop where
  document : read (g.toDot title) = some (g.document title)
  labels : ∀ block ∈ g.reachableBlocks, marks (escapeQuotes block.caption).toList =
    (block.captionTexts.map String.toList).flatMap lineMarks

/-- The statements are found if and only if no backslash of a text that is shown protects a quote.
The lines of all labels are found as well if and only if every such backslash stands directly before
an angle bracket. The title is of no concern. -/
theorem readsBack_iff (g : Graph) (title : Option String) :
    (read (g.toDot title) = some (g.document title) ↔
      ∀ block ∈ g.reachableBlocks, ∀ text ∈ block.captionTexts,
        protectsQuote text.toList = false) ∧
    (g.ReadsBack title ↔
      ∀ block ∈ g.reachableBlocks, ∀ text ∈ block.captionTexts, IsPlain text.toList) := by
  have hlabel (block : Block) : marks (escapeQuotes block.caption).toList =
      (block.captionTexts.map String.toList).flatMap lineMarks ↔
        ∀ text ∈ block.captionTexts, isLegible text.toList = true := by
    rw [toList_escapeQuotes_caption, marks_lines_eq_iff, List.forall_mem_map]
  refine ⟨read_toDot_iff, fun h block hblock text htext => ?_,
    fun h => ⟨?_, fun block hblock => ?_⟩⟩
  · exact isPlain_iff.2 ⟨read_toDot_iff.1 h.document block hblock text htext,
      (hlabel block).1 (h.labels block hblock) text htext⟩
  · exact read_toDot_iff.2 fun block hblock text htext =>
      (isPlain_iff.1 (h block hblock text htext)).1
  · exact (hlabel block).2 fun text htext => (isPlain_iff.1 (h block hblock text htext)).2

/-- A block that prints a string with a quote inside. -/
private def printing : Graph :=
  { blocks := #[
      { id := 0, kind := .base,
        statements := [.call "puts" [.constant "string" "\"a\\\"b\""]] }] }

private theorem captionTexts_printing :
    printing.reachableBlocks.flatMap Block.captionTexts = ["puts(\"a\\\"b\")"] := by
  cbv

/-- The label is taken to end at the quote inside the string. -/
theorem read_toDot_printing :
    read (printing.toDot none) ≠ some (printing.document none) := by
  rw [Ne, read_toDot_iff]
  intro h
  have htext : "puts(\"a\\\"b\")" ∈ printing.reachableBlocks.flatMap Block.captionTexts := by
    rw [captionTexts_printing]
    exact List.mem_singleton.2 rfl
  obtain ⟨block, hblock, hmem⟩ := List.mem_flatMap.1 htext
  exact absurd (h block hblock _ hmem) (by decide)

end Graph

end FlowGraph
