import SourceBlocks.Proofs.Query.Recency

/-! # Caches alike in what has not expired

Two caches that hold the same, what has expired apart, answer each request alike and stay alike: an
entry that has not expired leaves a full cache only when no entry there has. -/

namespace SourceBlocks

namespace QueryCache

/-- The entries that have not expired. -/
def live (c : QueryCache) (now : Nat) (es : List CacheEntry) : List CacheEntry :=
  es.filter fun e => !c.isExpired now e

variable {compiler : QueryCompiler} {room now next : Nat} {c d : QueryCache} {key : QueryKey}
  {e : CacheEntry} {es : List CacheEntry}

theorem isExpired_congr (h : c.ttl = d.ttl) (now : Nat) (e : CacheEntry) :
    c.isExpired now e = d.isExpired now e := by
  rw [isExpired, isExpired, h]

theorem live_congr (h : c.ttl = d.ttl) (now : Nat) (es : List CacheEntry) :
    c.live now es = d.live now es :=
  List.filter_congr fun e _ => by rw [isExpired_congr h]

/-- What has expired stays so, and so has what was used no later. -/
theorem isExpired_mono {f : CacheEntry} (hnext : now ≤ next) (hused : f.lastUsed ≤ e.lastUsed)
    (h : c.isExpired now e = true) : c.isExpired next f = true := by
  rw [isExpired_eq_true_iff] at h ⊢
  obtain ⟨httl, hlong⟩ := h
  exact ⟨httl, by omega⟩

theorem live_live (hnext : now ≤ next) (es : List CacheEntry) :
    c.live next (c.live now es) = c.live next es := by
  unfold live
  rw [List.filter_filter]
  apply List.filter_congr
  intro e _
  cases hexpired : c.isExpired now e with
  | false => simp
  | true => simp [isExpired_mono hnext (Nat.le_refl e.lastUsed) hexpired]

theorem live_filter (p : CacheEntry → Bool) (es : List CacheEntry) :
    c.live now (es.filter p) = (c.live now es).filter p := by
  unfold live
  rw [List.filter_filter, List.filter_filter]
  exact List.filter_congr fun e _ => Bool.and_comm ..

theorem live_cons_congr {fs : List CacheEntry} (httl : c.ttl = d.ttl) (e : CacheEntry)
    (h : c.live now es = d.live now fs) : c.live now (e :: es) = d.live now (e :: fs) := by
  unfold live at h ⊢
  rw [List.filter_cons, List.filter_cons, h, isExpired_congr httl]

/-- Listed by last use, the entries that have not expired stand before all others. -/
theorem live_take (hsorted : es.Pairwise fun a b => b.lastUsed < a.lastUsed) :
    ∀ n : Nat, c.live now (es.take n) = (c.live now es).take n := by
  induction es with
  | nil => intro n; simp [live]
  | cons first rest ih =>
    intro n
    obtain ⟨hfirst, hrest⟩ := List.pairwise_cons.1 hsorted
    cases n with
    | zero => rfl
    | succ n =>
      unfold live at ih ⊢
      cases hexpired : c.isExpired now first with
      | false =>
        rw [List.take_succ_cons, List.filter_cons_of_pos (by simp [hexpired]),
          List.filter_cons_of_pos (by simp [hexpired]), List.take_succ_cons, ih hrest]
      | true =>
        have hnone : rest.filter (fun e => !c.isExpired now e) = [] := by
          rw [List.filter_eq_nil_iff]
          intro e he
          simp [isExpired_mono (Nat.le_refl now) (Nat.le_of_lt (hfirst e he)) hexpired]
        have hnone' := ih hrest n
        rw [hnone, List.take_nil] at hnone'
        rw [List.take_succ_cons, List.filter_cons_of_neg (by simp [hexpired]),
          List.filter_cons_of_neg (by simp [hexpired]), hnone, hnone', List.take_nil]

theorem Recent.isHit_iff (h : c.Recent now es) (hc : c.WellFormed compiler room) :
    c.isHit now key = true ↔ ∃ e ∈ c.live now es, e.key = key := by
  rw [hc.isHit_iff]
  constructor
  · rintro ⟨e, he, hkey, hlive⟩
    exact ⟨e, List.mem_filter.2 ⟨h.perm.symm.subset he, by simp [hlive]⟩, hkey⟩
  · rintro ⟨e, he, hkey⟩
    obtain ⟨hmem, hlive⟩ := List.mem_filter.1 he
    exact ⟨e, h.perm.subset hmem, hkey, by simpa using hlive⟩

theorem Recent.mem_keys_touched {f : CacheEntry} (hf : f ∈ es) (e : CacheEntry) (now : Nat) :
    f.key ∈ (e.touch now :: es.filter fun d => d.key != e.key).map CacheEntry.key := by
  rw [List.map_cons, List.mem_cons]
  by_cases hsame : f.key = e.key
  · exact Or.inl hsame
  · have hkept : f ∈ es.filter fun d => d.key != e.key :=
      List.mem_filter.2 ⟨hf, by simpa using hsame⟩
    exact Or.inr (List.mem_map_of_mem hkept)

/-- What a list that is one entry too long loses was used no later than the rest. -/
theorem Recent.lastUsed_le_of_cut (h : c.Recent now es) (hlong : es.length ≤ room + 1) (he : e ∈ es)
    (hcut : e ∉ es.take room) : ∀ f ∈ es, e.lastUsed ≤ f.lastUsed := by
  have hsplit := (List.take_append_drop room es).symm
  have hsorted := h.sorted
  rw [hsplit] at he hsorted
  have hend : e ∈ es.drop room := (List.mem_append.1 he).resolve_left hcut
  intro f hf
  rw [hsplit] at hf
  rcases List.mem_append.1 hf with hkept | hlost
  · exact Nat.le_of_lt ((List.pairwise_append.1 hsorted).2.2 f hkept e hend)
  · -- no more than one is lost
    have hone : (es.drop room).length ≤ 1 := by
      rw [List.length_drop]
      omega
    obtain ⟨last, hlast⟩ := List.length_eq_one_iff.1
      (Nat.le_antisymm hone (List.length_pos_of_mem hend))
    rw [hlast, List.mem_singleton] at hend hlost
    exact Nat.le_of_eq (hend ▸ hlost ▸ rfl)

/-- An entry that has not expired leaves at a request only when no entry of the cache has expired. -/
theorem Recent.all_live_of_evicted (h : c.Recent now es) (hc : c.WellFormed compiler room)
    (he : e ∈ c.entries) (hlive : c.isExpired now e = false)
    (hgone : e.key ∉ (c.request compiler now key).cache.entries.map CacheEntry.key) :
    ∀ f ∈ c.entries, c.isExpired now f = false := by
  have hnext : now < now + 1 := Nat.lt_succ_self now
  replace he : e ∈ es := h.perm.symm.subset he
  cases hgrammar : Language.hasGrammar key.language with
  | false =>
    rw [hc.request_of_no_grammar hgrammar] at hgone
    exact absurd (List.mem_map_of_mem (h.perm.subset he)) hgone
  | true =>
    cases hhit : c.isHit now key with
    | true =>
      obtain ⟨d, hd, rfl, hfresh⟩ := hc.isHit_iff.1 hhit
      have hafter := h.request_hit hc hnext (h.perm.symm.subset hd) hfresh
      exact absurd ((hafter.perm.map CacheEntry.key).subset (mem_keys_touched he d now)) hgone
    | false =>
      have hafter := h.request_miss hc hnext hhit hgrammar
      rw [← (hafter.perm.map CacheEntry.key).mem_iff, List.map_cons, List.mem_cons, not_or] at hgone
      obtain ⟨hother, hgone⟩ := hgone
      have hmem : e ∈ es.filter fun d => d.key != key :=
        List.mem_filter.2 ⟨he, by simpa using hother⟩
      have hcut : e ∉ (es.filter fun d => d.key != key).take (room - 1) :=
        fun hin => hgone (List.mem_map_of_mem hin)
      have hsize := h.length_le hc
      -- the list was full, so the requested key was not on it
      have hlong : room - 1 < (es.filter fun d => d.key != key).length := by
        apply Nat.lt_of_not_le
        intro hshort
        rw [List.take_of_length_le hshort] at hcut
        exact hcut hmem
      have hall : (es.filter fun d => d.key != key) = es :=
        List.filter_sublist.eq_of_length_le (by omega)
      rw [hall] at hcut
      intro f hf
      have hused := h.lastUsed_le_of_cut (by omega) he hcut f (h.perm.symm.subset hf)
      rw [Bool.eq_false_iff]
      intro hexpired
      rw [isExpired_mono (Nat.le_refl now) hused hexpired] at hlive
      exact Bool.noConfusion hlive

/-- Caches of one shape that hold the same in the same order, what has expired apart, and count on
from the same number. -/
structure Alike (compiler : QueryCompiler) (room now : Nat) (c d : QueryCache) : Prop where
  left : c.WellFormed compiler room
  right : d.WellFormed compiler room
  ttl : c.ttl = d.ttl
  serial : c.nextSerial = d.nextSerial
  listed : ∃ es fs, c.Recent now es ∧ d.Recent now fs ∧ c.live now es = d.live now fs

theorem compileResult_congr (h : c.nextSerial = d.nextSerial) (compiler : QueryCompiler)
    (key : QueryKey) : c.compileResult compiler key = d.compileResult compiler key := by
  rw [compileResult, compileResult, h]

namespace Alike

variable {fs : List CacheEntry}

theorem empty (compiler : QueryCompiler) (capacity ttl now : Nat) :
    Alike compiler (max capacity 1) now (.empty capacity ttl) (.empty capacity ttl) where
  left := wellFormed_empty compiler capacity ttl
  right := wellFormed_empty compiler capacity ttl
  ttl := rfl
  serial := rfl
  listed := ⟨[], [], .nil rfl now, .nil rfl now, rfl⟩

/-- As time passes the same entries expire in both. -/
theorem live_later (httl : c.ttl = d.ttl) (hnext : now ≤ next)
    (h : c.live now es = d.live now fs) : c.live next es = d.live next fs := by
  rw [← live_live hnext, h, live_congr httl, live_live hnext]

theorem later (h : Alike compiler room now c d) (hnext : now ≤ next) :
    Alike compiler room next c d := by
  obtain ⟨es, fs, hc, hd, hlive⟩ := h.listed
  exact { h with listed := ⟨es, fs, hc.later hnext, hd.later hnext, live_later h.ttl hnext hlive⟩ }

theorem sweepRight (h : Alike compiler room now c d) : Alike compiler room now c (d.sweep now).2 := by
  obtain ⟨es, fs, hc, hd, hlive⟩ := h.listed
  have hkept := hlive.trans (live_live (Nat.le_refl now) fs).symm
  exact { h with right := h.right.sweep now, listed := ⟨es, d.live now fs, hc, hd.sweep now, hkept⟩ }

theorem symm (h : Alike compiler room now c d) : Alike compiler room now d c := by
  obtain ⟨es, fs, hc, hd, hlive⟩ := h.listed
  exact ⟨h.right, h.left, h.ttl.symm, h.serial.symm, fs, es, hd, hc, hlive.symm⟩

theorem sweep (h : Alike compiler room now c d) :
    Alike compiler room now (c.sweep now).2 (d.sweep now).2 := h.sweepRight.symm.sweepRight.symm

theorem clear (h : Alike compiler room now c d) : Alike compiler room now c.clear d.clear where
  left := h.left.clear
  right := h.right.clear
  ttl := h.ttl
  serial := h.serial
  listed := ⟨[], [], .nil rfl now, .nil rfl now, rfl⟩

theorem isHit_eq (h : Alike compiler room now c d) (key : QueryKey) :
    c.isHit now key = d.isHit now key := by
  obtain ⟨es, fs, hc, hd, hlive⟩ := h.listed
  rw [Bool.eq_iff_iff, hc.isHit_iff h.left, hd.isHit_iff h.right, hlive]

/-- A hit finds the same entry in both. -/
theorem request_hit (h : Alike compiler room now c d) (hnext : now < next)
    (hhit : c.isHit now key = true) :
    c.outcome compiler now key = d.outcome compiler now key ∧
      Alike compiler room next (c.request compiler now key).cache
        (d.request compiler now key).cache := by
  obtain ⟨es, fs, hc, hd, hlive⟩ := h.listed
  obtain ⟨e, he, rfl⟩ := (hc.isHit_iff h.left).1 hhit
  obtain ⟨hmem, hfresh⟩ := List.mem_filter.1 he
  obtain ⟨hmem', hfresh'⟩ := List.mem_filter.1 (hlive ▸ he)
  replace hfresh : c.isExpired now e = false := by simpa using hfresh
  replace hfresh' : d.isExpired now e = false := by simpa using hfresh'
  have hfound : c.find? e.key = some e := h.left.find?_eq_some_iff.2 ⟨hc.perm.subset hmem, rfl⟩
  have hfound' : d.find? e.key = some e := h.right.find?_eq_some_iff.2 ⟨hd.perm.subset hmem', rfl⟩
  refine ⟨by rw [outcome_of_hit hfound hfresh, outcome_of_hit hfound' hfresh'],
    h.left.request now e.key, h.right.request now e.key, ?_, ?_, ?_⟩
  · rw [ttl_request, ttl_request, h.ttl]
  · rw [request_of_hit hfound hfresh, request_of_hit hfound' hfresh']
    exact h.serial
  · refine ⟨_, _, hc.request_hit h.left hnext hmem hfresh, hd.request_hit h.right hnext hmem' hfresh',
      ?_⟩
    have hrest := live_later h.ttl (Nat.le_of_lt hnext) hlive
    rw [live_congr (ttl_request c ..), live_congr (ttl_request d ..)]
    apply live_cons_congr h.ttl
    rw [live_filter, live_filter, hrest]

/-- A text that is compiled anew is the same in both, and pushes out of the entries that have not
expired the same from both. -/
theorem request_miss (h : Alike compiler room now c d) (hnext : now < next)
    (hmiss : c.isHit now key = false) (hgrammar : Language.hasGrammar key.language = true) :
    c.outcome compiler now key = d.outcome compiler now key ∧
      Alike compiler room next (c.request compiler now key).cache
        (d.request compiler now key).cache := by
  obtain ⟨es, fs, hc, hd, hlive⟩ := h.listed
  have hmiss' : d.isHit now key = false := h.isHit_eq key ▸ hmiss
  have hresult := compileResult_congr h.serial compiler key
  refine ⟨by rw [outcome_of_miss hmiss hgrammar, outcome_of_miss hmiss' hgrammar, hresult],
    h.left.request now key, h.right.request now key, ?_, ?_, ?_⟩
  · rw [ttl_request, ttl_request, h.ttl]
  · rw [request_of_miss hmiss, request_of_miss hmiss', compileNew_of_grammar hgrammar (c.find?_erase key),
      compileNew_of_grammar hgrammar (d.find?_erase key)]
    show c.nextSerial + (c.compileResult compiler key).toOption.toList.length =
      d.nextSerial + (d.compileResult compiler key).toOption.toList.length
    rw [hresult, h.serial]
  · refine ⟨_, _, hc.request_miss h.left hnext hmiss hgrammar,
      hd.request_miss h.right hnext hmiss' hgrammar, ?_⟩
    have hrest := live_later h.ttl (Nat.le_of_lt hnext) hlive
    rw [live_congr (ttl_request c ..), live_congr (ttl_request d ..), hresult]
    apply live_cons_congr h.ttl
    rw [live_take (hc.erase key).sorted, live_take (hd.erase key).sorted, live_filter, live_filter,
      hrest]

theorem request_of_no_grammar (h : Alike compiler room now c d) (hnext : now < next)
    (hnone : Language.hasGrammar key.language = false) :
    c.outcome compiler now key = d.outcome compiler now key ∧
      Alike compiler room next (c.request compiler now key).cache
        (d.request compiler now key).cache := by
  have hmiss := isHit_of_find?_eq_none (h.left.find?_of_no_grammar hnone) now
  have hmiss' := isHit_of_find?_eq_none (h.right.find?_of_no_grammar hnone) now
  rw [h.left.request_of_no_grammar hnone, h.right.request_of_no_grammar hnone,
    outcome_of_no_grammar hmiss hnone, outcome_of_no_grammar hmiss' hnone]
  exact ⟨rfl, h.later (Nat.le_of_lt hnext)⟩

/-- A request comes to the same in both and leaves them alike. -/
theorem request (h : Alike compiler room now c d) (hnext : now < next) (key : QueryKey) :
    c.outcome compiler now key = d.outcome compiler now key ∧
      Alike compiler room next (c.request compiler now key).cache
        (d.request compiler now key).cache := by
  cases hgrammar : Language.hasGrammar key.language with
  | false => exact h.request_of_no_grammar hnext hgrammar
  | true =>
    cases hhit : c.isHit now key with
    | false => exact h.request_miss hnext hhit hgrammar
    | true => exact h.request_hit hnext hhit

end Alike

end QueryCache

end SourceBlocks
