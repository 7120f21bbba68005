import SourceBlocks.Language.Detection

/-! # What a detector remembers

A detector remembers answers and nothing else, so that its memory does not show in what it
answers. -/

namespace SourceBlocks

namespace Detector

/-- Each remembered answer is the one that the path has. -/
def Sound (d : Detector) : Prop := ∀ entry ∈ d.memo, entry.2 = Detection.languageOf? entry.1

theorem sound_empty : empty.Sound := fun _ h => absurd h List.not_mem_nil

/-- A detector answers with the language of the path, remembered or not. -/
theorem Sound.detect {d : Detector} (h : d.Sound) (path : String) :
    (d.detect path).1 = Detection.languageOf? path ∧ (d.detect path).2.Sound := by
  rw [Detector.detect]
  split
  case isTrue hblank => exact ⟨by rw [Detection.languageOf?, if_pos hblank], h⟩
  case isFalse hblank =>
    split
    case h_1 answer hlookup =>
      obtain ⟨before, after, hmemo, -⟩ := List.lookup_eq_some_iff.1 hlookup
      exact ⟨h (path, answer) (by simp [hmemo]), h⟩
    case h_2 =>
      refine ⟨rfl, fun entry hentry => ?_⟩
      rcases List.mem_cons.1 hentry with rfl | hold
      · rfl
      · exact h entry hold

end Detector

end SourceBlocks
