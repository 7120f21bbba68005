import SourceBlocks.Capture.Structural
import SourceBlocks.Proofs.Capture.Matches
import SourceBlocks.Proofs.Tree.Visit

/-! # Bodies of captures

All that a query or the structural walk captures is a node of the tree, and the captures come by the
start of their bodies: a query's because they are sorted, the walk's because the tree lies over its
text. -/

namespace SourceBlocks

/-! ## Matches -/

namespace Pattern

mutual

/-- A match at a node captures nodes of its subtree. -/
theorem mem_preorder_of_matchesAt :
    ∀ (p : Pattern) (n : Node), ∀ r ∈ p.matchesAt n, ∀ e ∈ r, e.2 ∈ n.preorder
  | mk field test children capture, n => by
    intro r hr e he
    obtain ⟨-, below, hbelow, rfl⟩ := mem_matchesAt.1 hr
    rcases List.mem_append.1 he with he | he
    · obtain ⟨name, -, rfl⟩ := List.mem_map.1 he
      exact n.self_mem_preorder
    · obtain ⟨c, hc, hec⟩ := mem_preorder_of_matchesAmong children n.children below hbelow e he
      exact Node.mem_preorder_of_child hc hec

theorem mem_preorder_of_matchesAmong :
    ∀ (ps : List Pattern) (ns : List Node), ∀ r ∈ matchesAmong ps ns, ∀ e ∈ r,
      ∃ n ∈ ns, e.2 ∈ n.preorder
  | [], ns => by
    intro r hr e he
    obtain rfl := mem_matchesAmong_nil.1 hr
    exact absurd he List.not_mem_nil
  | p :: ps, ns => by
    intro r hr e he
    obtain ⟨n, rest, hsplit, -, first, hfirst, others, hothers, rfl⟩ := mem_matchesAmong_cons.1 hr
    obtain ⟨hn, hrest⟩ := mem_of_mem_splits hsplit
    rcases List.mem_append.1 he with he | he
    · exact ⟨n, hn, mem_preorder_of_matchesAt p n first hfirst e he⟩
    · obtain ⟨m, hm, hem⟩ := mem_preorder_of_matchesAmong ps rest others hothers e he
      exact ⟨m, hrest m hm, hem⟩

end

end Pattern

theorem mem_preorder_of_matchesIn {patterns : List Pattern} {root : Node} {r : Record}
    (hr : r ∈ matchesIn patterns root) : ∀ e ∈ r, e.2 ∈ root.preorder := by
  obtain ⟨n, hn, p, -, hr⟩ := mem_matchesIn.1 hr
  exact fun e he => Node.mem_preorder_trans hn (Pattern.mem_preorder_of_matchesAt p n r hr e he)

/-! ## Normalization -/

namespace Capture

theorem le_trans (a b c : Capture) (hab : a.le b = true) (hbc : b.le c = true) :
    a.le c = true := by
  simp only [le, Bool.or_eq_true, Bool.and_eq_true, decide_eq_true_eq, beq_iff_eq] at *
  omega

theorem le_total (a b : Capture) : (a.le b || b.le a) = true := by
  simp only [le, Bool.or_eq_true, Bool.and_eq_true, decide_eq_true_eq, beq_iff_eq]
  omega

theorem start_le_of_le {a b : Capture} (h : a.le b = true) :
    a.body.start.byte ≤ b.body.start.byte := by
  simp only [le, Bool.or_eq_true, Bool.and_eq_true, decide_eq_true_eq, beq_iff_eq] at h
  omega

/-- The body of a record is one of its nodes. -/
theorem body_mem_of_ofRecord? {r : Record} {c : Capture} (h : ofRecord? r = some c) :
    ∃ e ∈ r, e.2 = c.body := by
  simp only [ofRecord?] at h
  cases hf : r.find? (·.1 != nameCapture) with
  | none => simp [hf] at h
  | some e =>
    simp only [hf, Option.some.injEq] at h
    subst h
    exact ⟨e, List.mem_of_find?_eq_some hf, rfl⟩

end Capture

namespace CaptureSet

theorem normalize_sorted (set : CaptureSet) :
    set.normalize.captures.Pairwise fun a b => a.body.start.byte ≤ b.body.start.byte :=
  (List.pairwise_mergeSort Capture.le_trans Capture.le_total _).imp Capture.start_le_of_le

/-- The captures of a query run have their bodies in the tree. -/
theorem body_mem_of_ofMatches {patterns : List Pattern} {root : Node} {c : Capture}
    (h : c ∈ (ofMatches (matchesIn patterns root)).normalize.captures) :
    c.body ∈ root.preorder := by
  simp only [normalize, ofMatches, toRecords, List.mem_mergeSort, List.mem_filterMap,
    List.mem_map] at h
  obtain ⟨_, ⟨r, hr, rfl⟩, hc⟩ := h
  obtain ⟨_, he, hbody⟩ := Capture.body_mem_of_ofRecord? hc
  obtain ⟨e, her, rfl⟩ := List.mem_map.1 he
  exact hbody ▸ mem_preorder_of_matchesIn hr e her

end CaptureSet

/-! ## The structural walk -/

theorem Capture.ofKind?_body {kinds : List String} {n : Node} {c : Capture}
    (h : Capture.ofKind? kinds n = some c) : c.body = n := by
  simp only [Capture.ofKind?] at h
  split at h
  · exact (congrArg Capture.body (Option.some.inj h)).symm
  · simp at h

theorem body_mem_of_structuralCaptures {language : String} {root : Node} {c : Capture}
    (h : c ∈ structuralCaptures language root) : c.body ∈ root.preorder := by
  obtain ⟨n, hn, hc⟩ := List.mem_filterMap.1 h
  rw [Capture.ofKind?_body hc]
  exact (Node.visited_sublist _ _).subset hn

theorem structuralCaptures_sorted {root : Node} {text : String} (h : root.LiesOver text)
    (language : String) :
    (structuralCaptures language root).Pairwise
      fun a b => a.body.start.byte ≤ b.body.start.byte := by
  have hvisited := h.preorder_sorted.sublist (Node.visited_sublist structuralDepth root)
  refine List.pairwise_filterMap.2 (hvisited.imp ?_)
  intro n m hnm c hc d hd
  rw [Capture.ofKind?_body hc, Capture.ofKind?_body hd]
  exact hnm

end SourceBlocks
