import SourceBlocks.Proofs.Block.Bounding
import SourceBlocks.Proofs.Failure.Counts

/-! # Bounding in stages

The one pass over the blocks comes to the same as three passes: keep the first block of each key, of
these the first of each type up to its limit, and of these the first up to the limit of the file. -/

namespace SourceBlocks

/-- The first block of each key, in order. -/
def firstOfKeys : List Block → List Block
  | [] => []
  | b :: bs => b :: (firstOfKeys bs).filter fun d => d.key != b.key

/-- One less for this type. -/
def lessOne (limit : String → Nat) (type : String) : String → Nat :=
  fun t => if t = type then limit t - 1 else limit t

/-- The first blocks of each type, as many as its limit says, in order. -/
def firstOfTypes (limit : String → Nat) : List Block → List Block
  | [] => []
  | b :: bs =>
    if limit b.type = 0 then firstOfTypes limit bs
    else b :: firstOfTypes (lessOne limit b.type) bs

theorem nodup_keys_firstOfKeys (bs : List Block) : ((firstOfKeys bs).map Block.key).Nodup := by
  induction bs with
  | nil => exact List.nodup_nil
  | cons b rest ih =>
    rw [firstOfKeys, List.map_cons, List.nodup_cons]
    constructor
    · intro hmem
      obtain ⟨d, hd, hkey⟩ := List.mem_map.1 hmem
      have hother := (List.mem_filter.1 hd).2
      simp [hkey] at hother
    · exact ih.sublist (List.filter_sublist.map Block.key)

/-- Nothing is repeated in a list of blocks with different keys. -/
theorem firstOfKeys_eq_self {bs : List Block} (h : (bs.map Block.key).Nodup) :
    firstOfKeys bs = bs := by
  induction bs with
  | nil => rfl
  | cons b rest ih =>
    rw [List.map_cons, List.nodup_cons] at h
    rw [firstOfKeys, ih h.2]
    congr 1
    rw [List.filter_eq_self]
    intro d hd
    have hother : d.key ≠ b.key := fun hkey => h.1 (hkey ▸ List.mem_map_of_mem hd)
    simpa using hother

theorem firstOfTypes_sublist (bs : List Block) :
    ∀ limit : String → Nat, (firstOfTypes limit bs).Sublist bs := by
  induction bs with
  | nil => exact fun _ => .refl _
  | cons b rest ih =>
    intro limit
    rw [firstOfTypes]
    split
    · exact (ih limit).cons b
    · exact (ih _).cons_cons b

/-- Each type on its own: its first blocks stay, as many as the limit says. -/
theorem filter_firstOfTypes (type : String) (bs : List Block) : ∀ limit : String → Nat,
    (firstOfTypes limit bs).filter (fun b => b.type == type) =
      (bs.filter fun b => b.type == type).take (limit type) := by
  induction bs with
  | nil => intro limit; simp [firstOfTypes]
  | cons b rest ih =>
    intro limit
    rw [firstOfTypes]
    by_cases hsame : b.type = type
    · subst hsame
      by_cases hnone : limit b.type = 0
      · simp [hnone, ih]
      · obtain ⟨n, hn⟩ := Nat.exists_eq_succ_of_ne_zero hnone
        simp [hn, ih, lessOne]
    · have hother : (b.type == type) = false := beq_eq_false_iff_ne.2 hsame
      have hlimit : lessOne limit b.type type = limit type := if_neg (Ne.symm hsame)
      split <;> simp [hother, ih, hlimit]

theorem length_filter_firstOfTypes_le (limit : String → Nat) (bs : List Block) (type : String) :
    ((firstOfTypes limit bs).filter fun b => b.type == type).length ≤ limit type := by
  rw [filter_firstOfTypes]
  exact List.length_take_le _ _

/-- Where no type is over its limit, all blocks stay. -/
theorem firstOfTypes_eq_self (bs : List Block) : ∀ {limit : String → Nat},
    (∀ type, (bs.filter fun b => b.type == type).length ≤ limit type) →
      firstOfTypes limit bs = bs := by
  induction bs with
  | nil => exact fun _ => rfl
  | cons b rest ih =>
    intro limit h
    have hfirst : (rest.filter fun d => d.type == b.type).length + 1 ≤ limit b.type := by
      simpa using h b.type
    rw [firstOfTypes, if_neg (by omega), ih]
    intro type
    rw [lessOne]
    split
    case isTrue hsame =>
      subst hsame
      omega
    case isFalse hother =>
      have hrest := h type
      rwa [List.filter_cons_of_neg (by simpa using Ne.symm hother)] at hrest

theorem Tally.count_bump (key other : String) (t : Tally) :
    (t.bump key).count other = t.count other + if key = other then 1 else 0 :=
  (t.grows_bump key).count_eq other

/-- What the pass may still keep of each type. -/
def BoundingState.remaining (st : BoundingState) (limit : String → Nat) : String → Nat :=
  fun type => limit type - st.perType.count type

theorem BoundingState.remaining_bump (st : BoundingState) (limit : String → Nat) (type : String)
    (seen : List BlockKey) (kept : Nat) :
    BoundingState.remaining ⟨seen, st.perType.bump type, kept⟩ limit =
      lessOne (st.remaining limit) type := by
  funext other
  rw [remaining, Tally.count_bump, lessOne, remaining]
  by_cases hsame : other = type
  · rw [if_pos hsame.symm, if_pos hsame]
    omega
  · rw [if_neg (Ne.symm hsame), if_neg hsame]
    omega

/-- What is neither of this key nor seen before is unseen once the key is seen. -/
theorem filter_unseen (key : BlockKey) (seen : List BlockKey) (bs : List Block) :
    (bs.filter fun d => d.key != key).filter (fun d => !seen.contains d.key) =
      bs.filter fun d => !(key :: seen).contains d.key := by
  rw [List.filter_filter]
  apply List.filter_congr
  intro d _
  by_cases hsame : d.key = key
  · simp [hsame]
  · simp [hsame]

/-- The pass goes on as the stages would with the blocks that are new to it, with what is left of the
limits of the types and with what is left of the limit of the file. -/
theorem boundFrom_eq_stages (limit : String → Nat) {maxBlocks : Nat} (bs : List Block) :
    ∀ st : BoundingState, st.kept < maxBlocks →
      boundFrom limit maxBlocks st bs =
        (firstOfTypes (st.remaining limit)
          ((firstOfKeys bs).filter fun b => !st.seen.contains b.key)).take
            (maxBlocks - st.kept) := by
  induction bs with
  | nil => intro st _; rw [boundFrom, firstOfKeys, List.filter_nil, firstOfTypes, List.take_nil]
  | cons b rest ih =>
    intro st hroom
    rw [boundFrom, firstOfKeys]
    split
    case isTrue hseen =>
      have hmem : b.key ∈ st.seen := List.contains_iff_mem.1 hseen
      -- a later block with this key was seen before the pass came here
      have hrest : (firstOfKeys rest).filter (fun d => !(b.key :: st.seen).contains d.key) =
          (firstOfKeys rest).filter fun d => !st.seen.contains d.key := by
        apply List.filter_congr
        intro d _
        by_cases hsame : d.key = b.key
        · simp [hsame, hmem]
        · simp [hsame]
      rw [List.filter_cons_of_neg (by simp [hmem]), filter_unseen, hrest]
      exact ih _ hroom
    case isFalse hseen =>
      have hnew : b.key ∉ st.seen := fun h => hseen (List.contains_iff_mem.2 h)
      rw [List.filter_cons_of_pos (by simpa using hnew), filter_unseen, firstOfTypes]
      dsimp only
      by_cases hover : limit b.type ≤ st.perType.count b.type
      · have hnone : st.remaining limit b.type = 0 := Nat.sub_eq_zero_of_le hover
        rw [if_pos hover, if_pos hnone]
        exact ih _ hroom
      · have hsome : st.remaining limit b.type ≠ 0 := by
          rw [BoundingState.remaining]
          omega
        rw [if_neg hover, if_neg hsome]
        split
        case isTrue hlast =>
          rw [show maxBlocks - st.kept = 1 by omega, List.take_succ_cons, List.take_zero]
        case isFalse hmore =>
          rw [ih _ (Nat.lt_of_not_le hmore), st.remaining_bump,
            show maxBlocks - st.kept = maxBlocks - (st.kept + 1) + 1 by omega,
            List.take_succ_cons]

theorem boundBlocks_eq_stages {s : Settings} {language : String}
    (h : 0 < (s.tuning language).maxBlocks) (bs : List Block) :
    boundBlocks s language bs =
      (firstOfTypes s.typeLimit (firstOfKeys bs)).take (s.tuning language).maxBlocks := by
  have hall : (firstOfKeys bs).filter (fun b => !([] : List BlockKey).contains b.key) =
      firstOfKeys bs := List.filter_eq_self.2 fun _ _ => rfl
  have hstages := boundFrom_eq_stages s.typeLimit bs ⟨[], [], 0⟩ h
  rwa [hall] at hstages

/-- The pass equals its stages when the file may have a block at all. It only leaves blocks out and
keeps no key twice, a second pass changes nothing, and a larger limit for the file only adds blocks
at the end. -/
theorem boundBlocks_staged (s : Settings) (language : String) (bs : List Block)
    (hroom : 1 ≤ (s.tuning language).maxBlocks) :
    let distinct := firstOfKeys bs
    let kept := boundBlocks s language bs
    kept = (firstOfTypes s.typeLimit distinct).take (s.tuning language).maxBlocks ∧
      (∀ type, (firstOfTypes s.typeLimit distinct).filter (fun b => b.type == type) =
        (distinct.filter fun b => b.type == type).take (s.typeLimit type)) ∧
      kept.Sublist bs ∧ (kept.map Block.key).Nodup ∧
      boundBlocks s language kept = kept ∧
      ∀ (t : Settings) (other : String), t.typeLimit = s.typeLimit →
        (s.tuning language).maxBlocks ≤ (t.tuning other).maxBlocks →
          kept <+: boundBlocks t other bs := by
  intro distinct kept
  have hkept : kept = (firstOfTypes s.typeLimit distinct).take (s.tuning language).maxBlocks :=
    boundBlocks_eq_stages hroom bs
  have hsub : kept.Sublist (firstOfTypes s.typeLimit distinct) := hkept ▸ List.take_sublist ..
  have honce : (kept.map Block.key).Nodup := by
    have hdistinct : kept.Sublist distinct := hsub.trans (firstOfTypes_sublist _ _)
    exact (nodup_keys_firstOfKeys bs).sublist (hdistinct.map Block.key)
  have hlimits : ∀ type, (kept.filter fun b => b.type == type).length ≤ s.typeLimit type :=
    fun type => Nat.le_trans (hsub.filter _).length_le (length_filter_firstOfTypes_le ..)
  refine ⟨hkept, fun type => filter_firstOfTypes type distinct _,
    boundBlocks_sublist s language bs, honce, ?_, ?_⟩
  · rw [boundBlocks_eq_stages hroom kept, firstOfKeys_eq_self honce,
      firstOfTypes_eq_self kept hlimits]
    exact List.take_of_length_le (length_boundBlocks_le hroom bs)
  · intro t other htypes hmore
    rw [hkept, boundBlocks_eq_stages (Nat.lt_of_lt_of_le hroom hmore) bs, htypes]
    exact List.take_prefix_take_left hmore

/-- Two blocks of one key, and blocks of three types. -/
def repeatedBlocks : List Block :=
  [⟨"function", "f", "a.py", "h", 1, 2, "def f(): pass"⟩,
    ⟨"function", "f", "a.py", "h", 1, 2, "def f(): ..."⟩,
    ⟨"function", "g", "a.py", "h", 3, 4, "def g(): pass"⟩,
    ⟨"impl", "f", "a.py", "h", 1, 2, "impl f"⟩,
    ⟨"class", "C", "a.py", "h", 5, 9, "class C: pass"⟩]

/-- With room for one function and two blocks the repetition of `f` takes no room, `g` is over the
limit of its type, and the class does not fit in any more. -/
theorem boundBlocks_staged_repeatedBlocks :
    let s : Settings := { maxFunctions := 1, maxBlocks := 2 }
    1 ≤ (s.tuning "python").maxBlocks ∧
      boundBlocks s "python" repeatedBlocks =
        (firstOfTypes s.typeLimit (firstOfKeys repeatedBlocks)).take 2 ∧
      (boundBlocks s "python" repeatedBlocks).map Block.identifier = ["f", "f"] := by
  intro s
  have hroom : 1 ≤ (s.tuning "python").maxBlocks := by decide
  exact ⟨hroom, (boundBlocks_staged s "python" repeatedBlocks hroom).1, by decide⟩

end SourceBlocks
