-- A formatted text keeps its tokens. Between them stand only spaces and line
-- feeds, unless a split puts a literal there, and the line feeds are those
-- that the splits ask for.
import LineBreak.Proofs.Solution
import LineBreak.Proofs.Writing

namespace LineBreak

/-! ## Ink and line feeds -/

/-- The characters of a text that are neither spaces nor line feeds. -/
def ink (text : String) : List Char := text.toList.filter fun c => c != ' ' && c != '\n'

/-- The number of line feeds in a text. -/
def feeds (text : String) : Nat := text.toList.count '\n'

@[simp]
theorem ink_append (text added : String) : ink (text ++ added) = ink text ++ ink added := by
  simp [ink]

@[simp]
theorem feeds_append (text added : String) : feeds (text ++ added) = feeds text + feeds added := by
  simp [feeds]

@[simp]
theorem ink_empty : ink "" = [] := rfl

@[simp]
theorem feeds_empty : feeds "" = 0 := rfl

namespace Filling

def isLiteral : Filling → Bool
  | literal _ => true
  | _ => false

/-- The line feeds that a filling asks for. -/
def feeds : Filling → Nat
  | newline blankLine _ => if blankLine then 2 else 1
  | _ => 0

end Filling

namespace Rendering

variable {split : Split}

/-- No ink is spilt between two tokens. -/
theorem ink_gapText (h : split.filling.isLiteral = false) (after : Layout) :
    ink (gapText split after) = [] := by
  unfold ink
  rw [toList_gapText]
  cases hfilling : split.filling with
  | space => rfl
  | nothing => rfl
  | newline blankLine noIndent => simp [Filling.chars_newline]
  | literal text =>
    rw [hfilling] at h
    cases h

theorem feeds_gapText (h : split.filling.isLiteral = false) (after : Layout) :
    feeds (gapText split after) = split.filling.feeds := by
  unfold feeds
  rw [toList_gapText]
  cases hfilling : split.filling with
  | space => rfl
  | nothing => rfl
  | newline blankLine noIndent =>
    cases blankLine <;> simp [Filling.chars_newline, Filling.feeds, List.count_replicate]
  | literal text =>
    rw [hfilling] at h
    cases h

end Rendering

/-! ## The tokens of slots -/

namespace Slot

/-- The tokens without anything between them: the first left one, then all right ones. -/
def tokenText (slots : List Slot) : String :=
  slots.head?.elim "" (·.boundary.left.text) ++ String.join (slots.map (·.boundary.right.text))

/-- No split on offer puts a text of its own between the tokens. -/
def Wordless (slots : List Slot) : Prop :=
  ∀ slot ∈ slots, ∀ split ∈ slot.splits, split.filling.isLiteral = false

instance (slots : List Slot) : Decidable (Wordless slots) :=
  inferInstanceAs (Decidable (∀ slot ∈ slots, ∀ split ∈ slot.splits,
    split.filling.isLiteral = false))

end Slot

namespace Layout

variable {slots : List Slot} {splits : List Split}

/-- What is written along a path is the ink of the right tokens. -/
theorem ink_writeAll (limit : Limit) (hwordless : Slot.Wordless slots)
    (hoffered : List.Forall₂ (fun slot split => split ∈ slot.splits) slots splits)
    (layout : Layout) (text : String) :
    ink (layout.writeAll limit text ((Slot.boundaries slots).zip splits)) =
      ink text ++ ink (String.join (slots.map (·.boundary.right.text))) := by
  induction hoffered generalizing layout text with
  | nil => simp [writeAll, Slot.boundaries]
  | @cons slot split slots splits hsplit _ ih =>
    obtain ⟨hslot, hslots⟩ := List.forall_mem_cons.mp hwordless
    show ink (writeAll limit _ (layout.write limit text split slot.boundary)
      ((Slot.boundaries slots).zip splits)) = _
    rw [ih hslots]
    simp [write, Rendering.ink_gapText (hslot split hsplit)]

/-- The line feeds written along a path are those of the right tokens and of the splits. -/
theorem feeds_writeAll (limit : Limit) (hwordless : Slot.Wordless slots)
    (hoffered : List.Forall₂ (fun slot split => split ∈ slot.splits) slots splits)
    (layout : Layout) (text : String) :
    feeds (layout.writeAll limit text ((Slot.boundaries slots).zip splits)) =
      feeds text + feeds (String.join (slots.map (·.boundary.right.text))) +
        (splits.map (·.filling.feeds)).sum := by
  induction hoffered generalizing layout text with
  | nil => simp [writeAll, Slot.boundaries]
  | @cons slot split slots splits hsplit _ ih =>
    obtain ⟨hslot, hslots⟩ := List.forall_mem_cons.mp hwordless
    show feeds (writeAll limit _ (layout.write limit text split slot.boundary)
      ((Slot.boundaries slots).zip splits)) = _
    rw [ih hslots]
    simp only [write, feeds_append, Rendering.feeds_gapText (hslot split hsplit), List.map_cons,
      String.join_cons, List.sum_cons]
    omega

end Layout

/-! ## The tokens of a formatted text -/

variable {slots : List Slot} {settings : Settings} {text : String}

/-- A formatted text is written along the splits of a solution. -/
theorem exists_solution_of_format (h : format slots settings = .ok text) :
    ∃ solution, search slots settings = .ok solution ∧
      List.Forall₂ (fun slot split => split ∈ slot.splits) slots solution.splits ∧
      text = Layout.start.writeAll solution.limit (slots.head?.elim "" (·.boundary.left.text))
        ((Slot.boundaries slots).zip solution.splits) := by
  cases hsearch : search slots settings with
  | error fault =>
    unfold format at h
    rw [hsearch] at h
    cases h
  | ok solution =>
    obtain ⟨last, hpath, _⟩ := Solution.path hsearch
    obtain ⟨rendering, hrendering, _⟩ := Solution.exists_rendering hsearch
    rw [format_eq_of_rendering hsearch hrendering] at h
    cases h
    refine ⟨solution, rfl, hpath.forall₂_mem, ?_⟩
    rw [Rendering.text_eq hrendering]
    cases slots <;> rfl

/-- Where no split on offer is a literal, formatting loses no token, changes none and keeps them
in order: but for spaces and line feeds the text is that of the tokens. Its line feeds are those
of the tokens, one for each line break that the search chose and one more for each of these with
an empty line. -/
theorem formatting_keeps_the_tokens (hwordless : Slot.Wordless slots)
    (h : format slots settings = .ok text) :
    ink text = ink (Slot.tokenText slots) ∧
      ∃ solution, search slots settings = .ok solution ∧
        feeds text =
          feeds (Slot.tokenText slots) + (solution.splits.map (·.filling.feeds)).sum := by
  obtain ⟨solution, hsearch, hoffered, rfl⟩ := exists_solution_of_format h
  unfold Slot.tokenText
  constructor
  · rw [Layout.ink_writeAll solution.limit hwordless hoffered, ink_append]
  · refine ⟨solution, hsearch, ?_⟩
    rw [Layout.feeds_writeAll solution.limit hwordless hoffered, feeds_append]

/-- A remark of two lines that is set apart by an empty line, or else by a space. -/
def setApart : List Slot :=
  [⟨⟨⟨"x", 1⟩, ⟨"= y", 4⟩⟩, [.space 0]⟩,
    ⟨⟨⟨"= y", 4⟩, ⟨"/*\n*/", 9⟩⟩, [(Split.newline 1).withBlankLine, .space 5]⟩]

/-- The space within a token is no ink, and the line feed within the other one is counted. -/
theorem the_remark_set_apart_is_kept :
    ∃ text, format setApart ⟨80, 10000, 10⟩ = .ok text ∧ Slot.Wordless setApart ∧
      ink text = ['x', '=', 'y', '/', '*', '*', '/'] ∧
      ∃ solution, search setApart ⟨80, 10000, 10⟩ = .ok solution ∧
        feeds text = 1 + (solution.splits.map (·.filling.feeds)).sum := by
  have hformat : format setApart ⟨80, 10000, 10⟩ = .ok "x = y\n\n/*\n*/" := by cbv
  have hwordless : Slot.Wordless setApart := by decide
  obtain ⟨hink, solution, hsearch, hfeeds⟩ := formatting_keeps_the_tokens hwordless hformat
  exact ⟨_, hformat, hwordless, hink, solution, hsearch, hfeeds⟩

end LineBreak
