import SourceBlocks.Block.Bounding

/-! # What bounding leaves

Bounding only leaves blocks out, keeps no more than fit, and keeps none just when each is of a type
that is not to occur. -/

namespace SourceBlocks

theorem boundFrom_sublist (limit : String → Nat) (maxBlocks : Nat) (bs : List Block) :
    ∀ st : BoundingState, (boundFrom limit maxBlocks st bs).Sublist bs := by
  induction bs with
  | nil => intro st; exact List.Sublist.refl _
  | cons b bs ih =>
    intro st
    rw [boundFrom]
    split
    · exact (ih _).cons _
    · dsimp only
      split
      · exact (ih _).cons _
      · split
        · exact (List.nil_sublist _).cons_cons _
        · exact (ih _).cons_cons _

theorem boundBlocks_sublist (s : Settings) (language : String) (bs : List Block) :
    (boundBlocks s language bs).Sublist bs := boundFrom_sublist _ _ bs _

theorem length_boundFrom_le (limit : String → Nat) {maxBlocks : Nat} (bs : List Block) :
    ∀ {st : BoundingState}, st.kept < maxBlocks →
      (boundFrom limit maxBlocks st bs).length + st.kept ≤ maxBlocks := by
  induction bs with
  | nil => intro st h; simpa [boundFrom] using Nat.le_of_lt h
  | cons b bs ih =>
    intro st h
    rw [boundFrom]
    split
    · exact ih h
    · dsimp only
      split
      · exact ih h
      · split
        case isTrue hlast =>
          rw [List.length_singleton]
          omega
        case isFalse hmore =>
          rw [List.length_cons, Nat.add_right_comm, Nat.add_assoc]
          exact ih (Nat.lt_of_not_le hmore)

theorem length_boundBlocks_le {s : Settings} {language : String}
    (h : 0 < (s.tuning language).maxBlocks) (bs : List Block) :
    (boundBlocks s language bs).length ≤ (s.tuning language).maxBlocks := by
  have hnone : (⟨[], [], 0⟩ : BoundingState).kept < (s.tuning language).maxBlocks := h
  simpa [boundBlocks] using length_boundFrom_le s.typeLimit bs hnone

/-- Nothing is kept just when each block was seen or is over the limit of its type. The limit of the
file plays no part: it is looked at after a block is kept. -/
theorem boundFrom_eq_nil_iff (limit : String → Nat) (maxBlocks : Nat) (bs : List Block) :
    ∀ st : BoundingState, boundFrom limit maxBlocks st bs = [] ↔
      ∀ b ∈ bs, b.key ∈ st.seen ∨ limit b.type ≤ st.perType.count b.type := by
  induction bs with
  | nil => intro st; simp [boundFrom]
  | cons b bs ih =>
    intro st
    rw [boundFrom]
    split
    case isTrue hseen =>
      rw [ih, List.forall_mem_cons]
      exact ⟨fun h => ⟨Or.inl (List.contains_iff_mem.1 hseen), h⟩, fun h => h.2⟩
    case isFalse hseen =>
      have hnew : b.key ∉ st.seen := fun h => hseen (List.contains_iff_mem.2 h)
      dsimp only
      split
      case isTrue hover =>
        -- a repetition of `b` is over the limit as `b` is, so that `b` may count as seen
        rw [ih, List.forall_mem_cons]
        constructor
        · intro h
          refine ⟨Or.inr hover, fun d hd => ?_⟩
          rcases h d hd with hkey | hlimit
          · rcases List.mem_cons.1 hkey with hsame | hold
            · have htype : d.type = b.type := congrArg BlockKey.type hsame
              exact Or.inr (htype ▸ hover)
            · exact Or.inl hold
          · exact Or.inr hlimit
        · intro h d hd
          exact (h.2 d hd).imp_left (List.mem_cons_of_mem _)
      case isFalse hover =>
        have hnot : ¬ ∀ d ∈ b :: bs, d.key ∈ st.seen ∨ limit d.type ≤ st.perType.count d.type :=
          fun h => (h b List.mem_cons_self).elim hnew hover
        rw [iff_false_right hnot]
        split
        · exact List.cons_ne_nil _ _
        · exact List.cons_ne_nil _ _

theorem boundBlocks_eq_nil_iff (s : Settings) (language : String) (bs : List Block) :
    boundBlocks s language bs = [] ↔ ∀ b ∈ bs, s.typeLimit b.type = 0 := by
  rw [boundBlocks, boundFrom_eq_nil_iff]
  simp [Tally.count]

end SourceBlocks
