import SourceBlocks.Query.Pattern

/-! # What a match is made of

A match at a node is what the pattern captures there and a match of its child patterns. A match of
several patterns takes a node for the first and matches the others with the nodes behind that one. -/

namespace SourceBlocks

theorem mem_of_mem_splits {α : Type} {a : α} {rest : List α} :
    ∀ {as : List α}, (a, rest) ∈ splits as → a ∈ as ∧ ∀ b ∈ rest, b ∈ as
  | [], h => by simp [splits] at h
  | c :: as, h => by
    rw [splits, List.mem_cons] at h
    rcases h with h | h
    · obtain ⟨rfl, rfl⟩ := Prod.mk.injEq .. ▸ h
      exact ⟨List.mem_cons_self, fun b hb => List.mem_cons_of_mem _ hb⟩
    · obtain ⟨ha, hr⟩ := mem_of_mem_splits h
      exact ⟨List.mem_cons_of_mem _ ha, fun b hb => List.mem_cons_of_mem _ (hr b hb)⟩

namespace Pattern

variable {r : Record}

theorem mem_matchesAt {field : Option String} {test : KindTest} {children : List Pattern}
    {capture : Option String} {n : Node} :
    r ∈ (mk field test children capture).matchesAt n ↔
      test.admits n = true ∧ ∃ below ∈ matchesAmong children n.children,
        capture.toList.map (·, n) ++ below = r := by
  rw [matchesAt]
  split
  case isTrue hadmits => simp [hadmits]
  case isFalse hadmits => simp [hadmits]

theorem mem_matchesAmong_nil {ns : List Node} : r ∈ matchesAmong [] ns ↔ r = [] := by
  rw [matchesAmong, List.mem_singleton]

theorem mem_matchesAmong_cons {p : Pattern} {ps : List Pattern} {ns : List Node} :
    r ∈ matchesAmong (p :: ps) ns ↔
      ∃ n rest, (n, rest) ∈ splits ns ∧ p.hangs n = true ∧
        ∃ first ∈ p.matchesAt n, ∃ others ∈ matchesAmong ps rest, first ++ others = r := by
  rw [matchesAmong, List.mem_flatMap, Prod.exists]
  refine exists_congr fun n => exists_congr fun rest => and_congr_right fun _ => ?_
  dsimp only
  split
  case isTrue hhangs => simp [hhangs]
  case isFalse hhangs => simp [hhangs]

end Pattern

/-- A match in a tree is one of some pattern at some node. -/
theorem mem_matchesIn {patterns : List Pattern} {root : Node} {r : Record} :
    r ∈ matchesIn patterns root ↔ ∃ n ∈ root.preorder, ∃ p ∈ patterns, r ∈ p.matchesAt n := by
  simp only [matchesIn, List.mem_flatMap]

end SourceBlocks
