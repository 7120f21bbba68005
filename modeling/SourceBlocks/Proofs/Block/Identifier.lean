import SourceBlocks.Proofs.Block.Placement
import SourceBlocks.Proofs.Text.LineBreaks
import SourceBlocks.Proofs.Text.Trimming
import SourceBlocks.Proofs.Tree.Declarators

/-! # Identifiers of blocks

A block is named by a piece of its own content, or else by its type and its first line. The name of a
declaration stands inside the bytes of its body, and cleaning only cuts at the ends. -/

namespace SourceBlocks

open Text

/-- A clean identifier is not empty, not too long, on one line, and a piece of what it was cut from. -/
structure CutFrom (name cs : List Char) : Prop where
  ne_nil : name ≠ []
  length_le : name.length ≤ 120
  one_line : '\n' ∉ name
  isInfix : name <:+: cs

theorem CutFrom.trans {name cs ds : List Char} (h : CutFrom name cs) (hcs : cs <:+: ds) :
    CutFrom name ds :=
  { h with isInfix := h.isInfix.trans hcs }

/-- The first line begins the text and goes on to no other line. -/
theorem firstLine_begins (cs : List Char) :
    '\n' ∉ (charLines cs).head?.getD [] ∧ (charLines cs).head?.getD [] <+: cs := by
  have hlines := linesOf_charLines cs
  cases h : charLines cs with
  | nil => exact ⟨by simp, List.nil_prefix⟩
  | cons line lines =>
    rw [h] at hlines
    exact hlines.first

theorem cutFrom_of_cleanIdentifier {cs name : List Char} (h : cleanIdentifier cs = some name) :
    CutFrom name cs := by
  obtain ⟨honeLine, hprefix⟩ := firstLine_begins cs
  rw [cleanIdentifier] at h
  generalize (charLines cs).head?.getD [] = line at h honeLine hprefix
  have hinfix : stripEnds isBlank (stripEnds isQuote (stripEnds isBlank line)) <:+: line :=
    ((stripEnds_isInfix _ _).trans (stripEnds_isInfix _ _)).trans (stripEnds_isInfix _ _)
  generalize stripEnds isBlank (stripEnds isQuote (stripEnds isBlank line)) = stripped at h hinfix
  split at h
  case isTrue => contradiction
  case isFalse hne =>
    obtain rfl := Option.some.inj h
    have htake : stripped.take maxIdentifier <:+: line :=
      (List.take_prefix _ _).isInfix.trans hinfix
    refine ⟨fun hnil => ?_, List.length_take_le _ _, fun hmem => ?_, ?_⟩
    · rcases List.take_eq_nil_iff.1 hnil with hzero | hnil
      · contradiction
      · exact hne (List.isEmpty_iff.2 hnil)
    · exact honeLine (htake.subset hmem)
    · exact htake.trans hprefix.isInfix

/-- The identifier of the block is cut from its content, or tells its type and its first line. -/
def Block.NamedWithin (b : Block) : Prop :=
  b.identifier = s!"{b.type}:{b.startLine}" ∨ CutFrom b.identifier.toList b.content.toList

/-- The text of a node inside the bytes of another is a piece of what that one covers, also where this is
the whole text. -/
theorem Node.isInfix_extent {n body : Node} {text : String} {cs : List Char}
    (hs : sliceChars? text.toList n.start.byte n.stop.byte = some cs)
    (hstart : body.start.byte ≤ n.start.byte) (hstop : n.stop.byte ≤ body.stop.byte) :
    cs <:+: (body.extent text).content := by
  rcases body.extent_cases text with ⟨content, hbody, -, hextent⟩ | hwhole
  · rw [hextent]
    exact sliceChars?_isInfix hs hbody hstart hstop
  · rw [hwhole]
    exact isInfix_of_sliceChars? hs

namespace Capture

/-- The name of the capture, if it has one, stands below its body. -/
def NamedBelow (c : Capture) : Prop := ∀ n ∈ c.name, n.Below c.body

/-- The name of a capture stands below its body, whether it was captured or is looked up. -/
theorem NamedBelow.nameNode {c : Capture} (h : c.NamedBelow) {language : String} {n : Node}
    (hn : c.name.or (c.body.declaredName? language) = some n) : n.Below c.body := by
  rcases Option.or_eq_some_iff.1 hn with hname | ⟨-, hdeclared⟩
  · exact h n hname
  · exact Node.declaredName?_below hdeclared

theorem cutFrom_of_identifier? {c : Capture} (hbody : c.body.Nested) (hname : c.NamedBelow)
    {language text identifier : String} (h : c.identifier? language text = some identifier) :
    CutFrom identifier.toList (c.body.extent text).content := by
  rw [identifier?, Option.map_eq_some_iff] at h
  obtain ⟨cs, hcs, rfl⟩ := h
  obtain ⟨n, hn, hclean⟩ := Option.bind_eq_some_iff.1 hcs
  obtain ⟨slice, hslice, hclean⟩ := Option.bind_eq_some_iff.1 hclean
  obtain ⟨hstart, hstop⟩ := hbody.below (hname.nameNode hn)
  rw [String.toList_ofList]
  exact (cutFrom_of_cleanIdentifier hclean).trans (Node.isInfix_extent hslice hstart hstop)

theorem identifier_of_block? {s : Settings} {language : String} {file : SourceText} {c : Capture}
    {b : Block} (h : c.block? s language file = some b) :
    b.identifier = (c.identifier? language file.text).getD s!"{b.type}:{b.startLine}" := by
  simp only [block?] at h
  split at h
  case isTrue => contradiction
  case isFalse =>
    obtain rfl := Option.some.inj h
    rfl

/-- A capture of a body with nested children gives a block that is named within. -/
theorem namedWithin_of_block? {s : Settings} {language : String} {file : SourceText} {c : Capture}
    (hbody : c.body.Nested) (hname : c.NamedBelow) {b : Block}
    (h : c.block? s language file = some b) : b.NamedWithin := by
  have hidentifier := identifier_of_block? h
  obtain ⟨hcontent, -⟩ := Capture.block?_eq_some h
  cases hfound : c.identifier? language file.text with
  | none =>
    rw [hfound, Option.getD_none] at hidentifier
    exact Or.inl hidentifier
  | some identifier =>
    rw [hfound, Option.getD_some] at hidentifier
    refine Or.inr ?_
    rw [hidentifier, hcontent, String.toList_ofList]
    exact cutFrom_of_identifier? hbody hname hfound

end Capture

end SourceBlocks
