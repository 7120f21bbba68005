import Mathlib.Data.List.Nodup
import SourceBlocks.Proofs.Query.Steps

/-! # Entries by last use

Under a clock that moves on, the entries of a cache are listed by their last use, no two at the same
time. A hit moves an entry to the head of this list, and a text that is compiled anew comes in at the
head, where a full cache loses the end of the list. -/

namespace SourceBlocks

namespace QueryCache

/-- The list holds the entries, the one that was used last at its head, and all were used before
now. -/
structure Recent (c : QueryCache) (now : Nat) (es : List CacheEntry) : Prop where
  perm : es.Perm c.entries
  sorted : es.Pairwise fun a b => b.lastUsed < a.lastUsed
  past : ∀ e ∈ es, e.lastUsed < now

variable {compiler : QueryCompiler} {room now next : Nat} {c : QueryCache} {key : QueryKey}
  {e : CacheEntry} {es : List CacheEntry}

theorem WellFormed.find?_eq_some_iff (h : c.WellFormed compiler room) :
    c.find? key = some e ↔ e ∈ c.entries ∧ e.key = key := by
  constructor
  · intro hfound
    exact ⟨List.mem_of_find?_eq_some hfound, by simpa using List.find?_some hfound⟩
  · rintro ⟨he, hkey⟩
    cases hfound : c.find? key with
    | none => exact absurd (List.mem_map_of_mem he) (hkey ▸ not_mem_keys_of_find?_eq_none hfound)
    | some d =>
      have hd : d ∈ c.entries := List.mem_of_find?_eq_some hfound
      have hsame : d.key = e.key := by
        rw [hkey]
        simpa using List.find?_some hfound
      exact congrArg some (List.inj_on_of_nodup_map h.once hd he hsame)

theorem WellFormed.isHit_iff (h : c.WellFormed compiler room) : c.isHit now key = true ↔
    ∃ e ∈ c.entries, e.key = key ∧ c.isExpired now e = false := by
  rw [isHit_iff_find?]
  simp only [h.find?_eq_some_iff, and_assoc]

/-- Only languages with a grammar are cached. -/
theorem WellFormed.find?_of_no_grammar (h : c.WellFormed compiler room)
    (hnone : Language.hasGrammar key.language = false) : c.find? key = none := by
  cases hfound : c.find? key with
  | none => rfl
  | some e =>
    obtain ⟨he, rfl⟩ := h.find?_eq_some_iff.1 hfound
    have hgrammar := (h.entry e he).grammar
    rw [hnone] at hgrammar
    exact absurd hgrammar Bool.false_ne_true

theorem oldest?_le (entries : List CacheEntry) : ∀ {o : CacheEntry}, oldest? entries = some o →
    ∀ e ∈ entries, o.lastUsed ≤ e.lastUsed := by
  induction entries with
  | nil => intro o _ e he; exact absurd he List.not_mem_nil
  | cons first rest ih =>
    intro o ho e he
    rw [oldest?] at ho
    cases hrest : oldest? rest with
    | none =>
      have hempty : rest = [] := by
        cases rest with
        | nil => rfl
        | cons second more => exact absurd hrest (by simp [oldest?])
      obtain rfl : first = o := by simpa [hrest] using ho
      obtain rfl : e = first := by simpa [hempty] using he
      exact Nat.le_refl _
    | some p =>
      have hle := ih hrest
      rw [hrest] at ho
      dsimp only at ho
      rcases List.mem_cons.1 he with rfl | hmem
      · split at ho <;> (obtain rfl := Option.some.inj ho; omega)
      · have := hle e hmem
        split at ho <;> (obtain rfl := Option.some.inj ho; omega)

theorem Recent.nil (h : c.entries = []) (now : Nat) : c.Recent now [] :=
  ⟨h ▸ .refl _, .nil, fun _ he => absurd he List.not_mem_nil⟩

/-- Entries that are left out leave the order of the others. -/
theorem Recent.filter (h : c.Recent now es) (p : CacheEntry → Bool) :
    Recent { c with entries := c.entries.filter p } now (es.filter p) where
  perm := h.perm.filter p
  sorted := h.sorted.filter p
  past e he := h.past e (List.mem_filter.1 he).1

theorem Recent.erase (h : c.Recent now es) (key : QueryKey) :
    (c.erase key).Recent now (es.filter fun e => e.key != key) := h.filter _

theorem Recent.sweep (h : c.Recent now es) (time : Nat) :
    (c.sweep time).2.Recent now (es.filter fun e => !c.isExpired time e) := h.filter _

theorem Recent.later (h : c.Recent now es) (hnext : now ≤ next) : c.Recent next es :=
  ⟨h.perm, h.sorted, fun e he => Nat.lt_of_lt_of_le (h.past e he) hnext⟩

/-- The entry not used for the longest time stands at the end. -/
theorem Recent.oldest?_eq {rest : List CacheEntry} {last : CacheEntry}
    (h : c.Recent now (rest ++ [last])) : oldest? c.entries = some last := by
  have hlast : last ∈ c.entries := h.perm.subset (by simp)
  have hsome := oldest?_isSome (List.ne_nil_of_mem hlast)
  obtain ⟨o, ho⟩ := Option.isSome_iff_exists.1 hsome
  have hmem : o ∈ rest ++ [last] := h.perm.symm.subset (oldest?_mem c.entries ho)
  have hle := oldest?_le c.entries ho last hlast
  rcases List.mem_append.1 hmem with hrest | hone
  · have hless := (List.pairwise_append.1 h.sorted).2.2 o hrest last (List.mem_singleton_self last)
    omega
  · rw [ho, List.mem_singleton.1 hone]

theorem Recent.nodup (h : c.Recent now es) (hc : c.WellFormed compiler room) :
    (es.map CacheEntry.key).Nodup := (h.perm.map CacheEntry.key).nodup_iff.2 hc.once

theorem Recent.length_le (h : c.Recent now es) (hc : c.WellFormed compiler room) :
    es.length ≤ room := h.perm.length_eq ▸ hc.size

/-- Among entries of different keys only the one of this key is left out. -/
theorem filter_key_append {before after : List CacheEntry}
    (h : ((before ++ e :: after).map CacheEntry.key).Nodup) :
    ((before ++ e :: after).filter fun d => d.key != e.key) = before ++ after := by
  have hother : ∀ d ∈ before ++ after, (d.key != e.key) = true := by
    intro d hd
    rw [List.map_append, List.map_cons, List.nodup_middle, ← List.map_append,
      List.nodup_cons] at h
    have hne : d.key ≠ e.key := fun hkey => h.1 (hkey ▸ List.mem_map_of_mem hd)
    simpa using hne
  rw [List.filter_append, List.filter_cons_of_neg (by simp), ← List.filter_append,
    List.filter_eq_self.2 hother]

/-- A full cache makes room by losing the end of the list. -/
theorem Recent.makeRoom (h : c.Recent now es) (hc : c.WellFormed compiler room) :
    c.makeRoom.Recent now (es.take (room - 1)) := by
  have hlength := h.perm.length_eq
  have hcapacity := hc.capacity
  have hsize := hc.size
  have hpos := hc.pos
  unfold QueryCache.makeRoom
  split
  case isTrue hfits =>
    rwa [List.take_of_length_le (by omega)]
  case isFalse hfull =>
    obtain ⟨rest, last, rfl⟩ : ∃ rest last, es = rest ++ [last] := by
      have hne : es ≠ [] := List.ne_nil_of_length_pos (by omega)
      exact ⟨es.dropLast, es.getLast hne, (List.dropLast_concat_getLast hne).symm⟩
    rw [h.oldest?_eq]
    have hrest : rest.length = room - 1 := by
      rw [List.length_append, List.length_singleton] at hlength
      omega
    have hkept : (rest ++ [last]).filter (fun e => e.key != last.key) = rest := by
      simpa using filter_key_append (h.nodup hc)
    rw [List.take_left' hrest]
    have herased := h.erase last.key
    rwa [hkept] at herased

/-- A new entry stands at the head. -/
theorem Recent.insert (h : c.Recent now es) (hc : c.WellFormed compiler room) (hnext : now < next)
    (hused : e.lastUsed = now) : (c.insert e).Recent next (e :: es.take (room - 1)) := by
  obtain ⟨hperm, hsorted, hpast⟩ := h.makeRoom hc
  constructor
  · exact hperm.cons _
  · exact List.pairwise_cons.2 ⟨hused ▸ hpast, hsorted⟩
  · intro d hd
    rcases List.mem_cons.1 hd with rfl | hold
    · exact hused ▸ hnext
    · exact Nat.lt_trans (hpast d hold) hnext

/-- A hit moves its entry to the head. -/
theorem Recent.touch (h : c.Recent now es) (hc : c.WellFormed compiler room) (hnext : now < next)
    (he : e ∈ es) :
    (c.touch now e.key).Recent next (e.touch now :: es.filter fun d => d.key != e.key) := by
  obtain ⟨before, after, rfl⟩ := List.append_of_mem he
  have hkeys := h.nodup hc
  have hfilter := filter_key_append hkeys
  have hothers : ∀ d ∈ before ++ after, d.touchKey e.key now = d := by
    intro d hd
    rw [← hfilter] at hd
    have hne : d.key ≠ e.key := by simpa using (List.mem_filter.1 hd).2
    rw [CacheEntry.touchKey, if_neg hne]
  have hmoved : (before ++ e :: after).map (CacheEntry.touchKey e.key now) =
      before ++ e.touch now :: after := by
    have hself : e.touchKey e.key now = e.touch now := if_pos rfl
    have hsame := List.map_congr_left hothers
    rw [List.map_id', List.map_append] at hsame
    obtain ⟨hbefore, hafter⟩ := List.append_inj hsame (List.length_map _)
    rw [List.map_append, List.map_cons, hself, hbefore, hafter]
  rw [hfilter]
  constructor
  · have hperm := h.perm.map (CacheEntry.touchKey e.key now)
    rw [hmoved] at hperm
    exact List.perm_middle.symm.trans hperm
  · refine List.pairwise_cons.2 ⟨fun d hd => h.past d ?_, ?_⟩
    · rw [← hfilter] at hd
      exact (List.mem_filter.1 hd).1
    · rw [← hfilter]
      exact h.sorted.filter _
  · intro d hd
    rcases List.mem_cons.1 hd with rfl | hold
    · exact hnext
    · rw [← hfilter] at hold
      exact Nat.lt_trans (h.past d (List.mem_filter.1 hold).1) hnext

theorem Recent.request_hit (h : c.Recent now es) (hc : c.WellFormed compiler room)
    (hnext : now < next) (he : e ∈ es) (hlive : c.isExpired now e = false) :
    (c.request compiler now e.key).cache.Recent next
      (e.touch now :: es.filter fun d => d.key != e.key) := by
  have hfound : c.find? e.key = some e := hc.find?_eq_some_iff.2 ⟨h.perm.subset he, rfl⟩
  rw [request_of_hit hfound hlive]
  exact h.touch hc hnext he

theorem Recent.request_miss (h : c.Recent now es) (hc : c.WellFormed compiler room)
    (hnext : now < next) (hmiss : c.isHit now key = false)
    (hgrammar : Language.hasGrammar key.language = true) :
    (c.request compiler now key).cache.Recent next
      (.ofResult key (c.compileResult compiler key) now ::
        (es.filter fun d => d.key != key).take (room - 1)) := by
  obtain ⟨hperm, hsorted, hpast⟩ := (h.erase key).insert (hc.erase key) hnext
    (CacheEntry.lastUsed_ofResult key (c.compileResult compiler key) now)
  rw [request_of_miss hmiss, compileNew_of_grammar hgrammar (c.find?_erase key)]
  exact ⟨hperm, hsorted, hpast⟩

/-- Nothing is cached for a language without a grammar. -/
theorem WellFormed.request_of_no_grammar (hc : c.WellFormed compiler room)
    (hnone : Language.hasGrammar key.language = false) :
    (c.request compiler now key).cache = c := by
  have hfound := hc.find?_of_no_grammar hnone
  rw [QueryCache.request, hfound]
  exact congrArg QueryAnswer.cache (compileNew_of_no_grammar hnone c compiler now)

end QueryCache

end SourceBlocks
