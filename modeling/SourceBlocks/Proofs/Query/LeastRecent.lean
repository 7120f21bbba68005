import Mathlib.Data.List.Dedup
import Mathlib.Order.Monotone.Basic
import SourceBlocks.Proofs.Query.Recency

/-! # The cache is told by the requests

Where nothing expires, the history of requests alone says what is cached: the keys that were requested
last, and for each the number of requests since the one that brought it in. -/

namespace SourceBlocks

/-- The last distinct keys among requests, as many as there is room for, the newest first. -/
def mostRecent (room : Nat) (requests : List QueryKey) : List QueryKey :=
  requests.dedup.reverse.take room

/-- The last requests of a history, from the one that brought the key in: it was not among the most
recent keys before, and has been ever since. -/
structure Stint (room : Nat) (requests : List QueryKey) (key : QueryKey) (since : List QueryKey) :
    Prop where
  first : since.head? = some key
  broughtIn : ∃ before, requests = before ++ since ∧ key ∉ mostRecent room before ∧
    ∀ part, part <+: since → part ≠ [] → key ∈ mostRecent room (before ++ part)

/-- The requests for languages with a grammar since the last clearing. -/
def QueryStep.requested (requests : List QueryKey) : QueryStep → List QueryKey
  | .request key => if Language.hasGrammar key.language then requests ++ [key] else requests
  | .sweep => requests
  | .clear => []

def requestedKeys (steps : List QueryStep) : List QueryKey :=
  steps.foldl QueryStep.requested []

theorem dedup_concat (requests : List QueryKey) (key : QueryKey) :
    (requests ++ [key]).dedup = (requests.dedup.filter fun k => k != key) ++ [key] := by
  induction requests with
  | nil => rfl
  | cons first rest ih =>
    rw [List.cons_append]
    by_cases hrest : first ∈ rest
    · rw [List.dedup_cons_of_mem hrest, List.dedup_cons_of_mem (List.mem_append_left _ hrest), ih]
    · rw [List.dedup_cons_of_notMem hrest]
      by_cases hsame : first = key
      · subst hsame
        rw [List.dedup_cons_of_mem (by simp), ih, List.filter_cons_of_neg (by simp)]
      · rw [List.dedup_cons_of_notMem (by simp [hrest, hsame]), ih,
          List.filter_cons_of_pos (by simpa using hsame), List.cons_append]

/-- Of a list without repetitions, cut off one place later than it is to be, one element may be left
out before. -/
theorem take_filter_take {l : List QueryKey} (h : l.Nodup) (key : QueryKey) (n : Nat) :
    ((l.take (n + 1)).filter fun k => k != key).take n =
      (l.filter fun k => k != key).take n := by
  rcases Nat.le_total l.length (n + 1) with hshort | hlong
  · rw [List.take_of_length_le hshort]
  · have hkept : n ≤ ((l.take (n + 1)).filter fun k => k != key).length := by
      have hnodup : (l.take (n + 1)).Nodup := h.sublist (List.take_sublist _ _)
      have herase := List.le_length_erase (l := l.take (n + 1)) (a := key)
      rw [hnodup.erase_eq_filter, List.length_take_of_le hlong] at herase
      exact herase
    conv_rhs => rw [← List.take_append_drop (n + 1) l, List.filter_append]
    rw [List.take_append_of_le_length hkept]

/-- A request puts its key before the others, of which the last may have to leave. -/
theorem mostRecent_concat (room : Nat) (requests : List QueryKey) (key : QueryKey) :
    mostRecent (room + 1) (requests ++ [key]) =
      key :: ((mostRecent (room + 1) requests).filter fun k => k != key).take room := by
  have hnodup : requests.dedup.reverse.Nodup := List.nodup_reverse.2 (List.nodup_dedup requests)
  unfold mostRecent
  rw [take_filter_take hnodup, dedup_concat, List.reverse_append, List.reverse_singleton,
    List.singleton_append, List.take_succ_cons, List.filter_reverse]

theorem Stint.extend {room : Nat} {requests since : List QueryKey} {key other : QueryKey}
    (h : Stint room requests key since) (hkept : key ∈ mostRecent room (requests ++ [other])) :
    Stint room (requests ++ [other]) key (since ++ [other]) := by
  obtain ⟨hfirst, before, rfl, hnew, hsince⟩ := h
  refine ⟨by rw [List.head?_append, hfirst]; rfl, before, List.append_assoc .., hnew, ?_⟩
  intro part hpart hne
  rcases List.prefix_concat_iff.1 hpart with rfl | hold
  · rwa [← List.append_assoc]
  · exact hsince part hold hne

theorem stint_singleton {room : Nat} {requests : List QueryKey} {key : QueryKey}
    (hnew : key ∉ mostRecent room requests)
    (hkept : key ∈ mostRecent room (requests ++ [key])) :
    Stint room (requests ++ [key]) key [key] := by
  refine ⟨rfl, requests, rfl, hnew, ?_⟩
  intro part hpart hne
  rcases List.prefix_cons_iff.1 hpart with rfl | ⟨rest, rfl, hrest⟩
  · exact absurd rfl hne
  · rwa [List.prefix_nil.1 hrest]

/-- A key was brought in once. -/
theorem Stint.unique {room : Nat} {requests since other : List QueryKey} {key : QueryKey}
    (h : Stint room requests key since) (h' : Stint room requests key other) : since = other := by
  obtain ⟨-, before, rfl, hnew, hsince⟩ := h
  obtain ⟨-, before', hsplit, hnew', hother⟩ := h'
  rcases List.append_eq_append_iff.1 hsplit with ⟨part, rfl, rfl⟩ | ⟨part, rfl, rfl⟩
  · by_cases hnone : part = []
    · rw [hnone, List.nil_append]
    · exact absurd (hsince part (List.prefix_append _ _) hnone) hnew'
  · by_cases hnone : part = []
    · rw [hnone, List.nil_append]
    · exact absurd (hother part (List.prefix_append _ _) hnone) hnew

/-- Entries, the one that was used last at the head, are those of the most recent keys, each with a
count of the requests for it since it came in. -/
structure LeastRecent (room : Nat) (requests : List QueryKey) (es : List CacheEntry) : Prop where
  keys : es.map CacheEntry.key = mostRecent room requests
  uses : ∀ e ∈ es, ∃ since, Stint room requests e.key since ∧ e.uses = since.count e.key

namespace LeastRecent

variable {room : Nat} {requests : List QueryKey} {es : List CacheEntry} {e : CacheEntry}

theorem nil (room : Nat) : LeastRecent room [] [] :=
  ⟨by simp [mostRecent], fun _ he => absurd he List.not_mem_nil⟩

theorem map_key_filter (es : List CacheEntry) (key : QueryKey) :
    (es.filter fun e => e.key != key).map CacheEntry.key =
      (es.map CacheEntry.key).filter fun k => k != key := by
  rw [List.filter_map]
  rfl

/-- Entries that stay through a request for another key go on being counted. -/
theorem uses_of_kept (h : LeastRecent room requests es) {key : QueryKey} (he : e ∈ es)
    (hother : e.key ≠ key) (hkept : e.key ∈ mostRecent room (requests ++ [key])) :
    ∃ since, Stint room (requests ++ [key]) e.key since ∧ e.uses = since.count e.key := by
  obtain ⟨since, hstint, huses⟩ := h.uses e he
  refine ⟨since ++ [key], hstint.extend hkept, ?_⟩
  rw [List.count_append, List.count_singleton, huses]
  simp [Ne.symm hother]

theorem touch (h : LeastRecent (room + 1) requests es) (hlength : es.length ≤ room + 1)
    (he : e ∈ es) (now : Nat) :
    LeastRecent (room + 1) (requests ++ [e.key])
      (e.touch now :: es.filter fun d => d.key != e.key) := by
  have hkeys : (e.touch now :: es.filter fun d => d.key != e.key).map CacheEntry.key =
      mostRecent (room + 1) (requests ++ [e.key]) := by
    have hless : (es.filter fun d => d.key != e.key).length < es.length :=
      List.length_filter_lt_length_iff_exists.2 ⟨e, he, by simp⟩
    rw [mostRecent_concat, ← h.keys, ← map_key_filter,
      List.take_of_length_le (by rw [List.length_map]; omega), List.map_cons]
    rfl
  refine ⟨hkeys, fun d hd => ?_⟩
  have hkept : d.key ∈ mostRecent (room + 1) (requests ++ [e.key]) :=
    hkeys ▸ List.mem_map_of_mem hd
  rcases List.mem_cons.1 hd with rfl | hold
  · obtain ⟨since, hstint, huses⟩ := h.uses e he
    refine ⟨since ++ [e.key], hstint.extend hkept, ?_⟩
    show e.uses + 1 = (since ++ [e.key]).count e.key
    rw [List.count_append, List.count_singleton_self, huses]
  · obtain ⟨hd', hother⟩ := List.mem_filter.1 hold
    exact h.uses_of_kept hd' (by simpa using hother) hkept

theorem insert (h : LeastRecent (room + 1) requests es) {key : QueryKey}
    (hnew : key ∉ es.map CacheEntry.key) (result : Except String QueryHandle) (now : Nat) :
    LeastRecent (room + 1) (requests ++ [key])
      (.ofResult key result now :: (es.filter fun d => d.key != key).take room) := by
  have hkeys : (.ofResult key result now :: (es.filter fun d => d.key != key).take room).map
      CacheEntry.key = mostRecent (room + 1) (requests ++ [key]) := by
    rw [mostRecent_concat, ← h.keys, ← map_key_filter, List.map_cons, List.map_take,
      CacheEntry.key_ofResult]
  refine ⟨hkeys, fun d hd => ?_⟩
  have hkept : d.key ∈ mostRecent (room + 1) (requests ++ [key]) :=
    hkeys ▸ List.mem_map_of_mem hd
  rcases List.mem_cons.1 hd with rfl | hold
  · rw [CacheEntry.key_ofResult] at hkept ⊢
    refine ⟨[key], stint_singleton (h.keys ▸ hnew) hkept, ?_⟩
    rw [CacheEntry.uses_ofResult, List.count_singleton_self]
  · obtain ⟨hd', hother⟩ := List.mem_filter.1 (List.mem_of_mem_take hold)
    exact h.uses_of_kept hd' (by simpa using hother) hkept

end LeastRecent

theorem QueryCache.isExpired_of_ttl_zero {c : QueryCache} (h : c.ttl = 0) (now : Nat)
    (e : CacheEntry) : c.isExpired now e = false := by
  rw [isExpired, h]
  rfl

namespace Services

/-- Services whose cache never expires anything and holds what the requests say. -/
structure Recalls (env : Environment) (room : Nat) (requests : List QueryKey) (s : Services) :
    Prop where
  wellFormed : s.cache.WellFormed env.compiler room
  ttl : s.cache.ttl = 0
  listed : ∃ es, s.cache.Recent (env.clock s.readings) es ∧ LeastRecent room requests es

variable {env : Environment} {room : Nat} {requests : List QueryKey} {s : Services}

theorem recalls_empty (env : Environment) (capacity : Nat) :
    (ofCache (.empty capacity 0)).Recalls env (max capacity 1) [] where
  wellFormed := QueryCache.wellFormed_empty env.compiler capacity 0
  ttl := rfl
  listed := ⟨[], .nil rfl _, .nil _⟩

/-- A request for a language with a grammar is the newest of all, whether it hits or not. -/
theorem Recalls.request (hclock : StrictMono env.clock) (h : s.Recalls env (room + 1) requests)
    (key : QueryKey) (hgrammar : Language.hasGrammar key.language = true) :
    (s.step env (.request key)).Recalls env (room + 1) (requests ++ [key]) := by
  obtain ⟨hwell, httl, es, hrecent, hleast⟩ := h
  have hnext : env.clock s.readings < env.clock (s.readings + 1) := hclock (Nat.lt_succ_self _)
  refine ⟨wellFormed_step hwell _, (ttl_step env s _).trans httl, ?_⟩
  · show ∃ es, (s.compile env key).2.cache.Recent (env.clock (s.compile env key).2.readings) es ∧ _
    rw [cache_compile, readings_compile]
    by_cases hcached : key ∈ es.map CacheEntry.key
    · obtain ⟨e, he, rfl⟩ := List.mem_map.1 hcached
      have hlive := s.cache.isExpired_of_ttl_zero httl (env.clock s.readings) e
      exact ⟨_, hrecent.request_hit hwell hnext he hlive,
        hleast.touch (hrecent.length_le hwell) he _⟩
    · have hmiss : s.cache.isHit (env.clock s.readings) key = false := by
        rw [Bool.eq_false_iff, Ne, hwell.isHit_iff]
        rintro ⟨e, he, hkey, -⟩
        exact hcached (hkey ▸ List.mem_map_of_mem (hrecent.perm.symm.subset he))
      exact ⟨_, hrecent.request_miss hwell hnext hmiss hgrammar, hleast.insert hcached _ _⟩

theorem Recalls.step (hclock : StrictMono env.clock) (h : s.Recalls env (room + 1) requests)
    (st : QueryStep) :
    (s.step env st).Recalls env (room + 1) (QueryStep.requested requests st) := by
  cases st with
  | request key =>
    rw [QueryStep.requested]
    split
    case isTrue hgrammar => exact h.request hclock key hgrammar
    case isFalse hnone =>
      have hsame : (s.step env (.request key)).cache = s.cache := by
        show (s.compile env key).2.cache = s.cache
        rw [cache_compile]
        exact h.wellFormed.request_of_no_grammar (Bool.eq_false_iff.2 hnone)
      obtain ⟨es, hrecent, hleast⟩ := h.listed
      have hlater : env.clock s.readings ≤ env.clock (s.step env (.request key)).readings := by
        rw [show (s.step env (.request key)).readings = _ from readings_compile env s key]
        exact hclock.monotone (Nat.le_succ _)
      refine ⟨hsame ▸ h.wellFormed, hsame ▸ h.ttl, es, ?_, hleast⟩
      rw [hsame]
      exact hrecent.later hlater
  | sweep =>
    obtain ⟨es, hrecent, hleast⟩ := h.listed
    have hall : es.filter (fun e => !s.cache.isExpired (env.clock s.readings) e) = es := by
      rw [List.filter_eq_self]
      intro e _
      rw [s.cache.isExpired_of_ttl_zero h.ttl, Bool.not_false]
    have hswept := (hrecent.sweep (env.clock s.readings)).later
      (hclock.monotone (Nat.le_succ s.readings))
    rw [hall] at hswept
    exact ⟨h.wellFormed.sweep _, h.ttl, es, hswept, hleast⟩
  | clear => exact ⟨h.wellFormed.clear, h.ttl, [], .nil rfl _, .nil _⟩

theorem Recalls.runSteps (hclock : StrictMono env.clock) (steps : List QueryStep) :
    ∀ {s : Services} {requests : List QueryKey}, s.Recalls env (room + 1) requests →
      (s.runSteps env steps).Recalls env (room + 1) (steps.foldl QueryStep.requested requests) := by
  induction steps with
  | nil => exact fun h => h
  | cons st rest ih => exact fun h => ih (h.step hclock st)

/-- Where nothing expires and the clock moves on, a cache holds after any history the keys that were
requested last since it was cleared, of the languages with a grammar and as many as it has room for.
An entry was used as often as its key was requested since the request that brought it in. -/
theorem cached_mostRecent (env : Environment) (hclock : StrictMono env.clock) (capacity : Nat)
    (history : List QueryOperation) :
    let s := (ofCache (.empty capacity 0)).runQueries env history
    let requests := requestedKeys (history.flatMap QueryOperation.steps)
    let room := max 1 capacity
    (s.cache.entries.map CacheEntry.key).Perm (mostRecent room requests) ∧
      ∀ e ∈ s.cache.entries, ∃! since, Stint room requests e.key since ∧
        e.uses = since.count e.key := by
  intro s requests room
  obtain ⟨less, hroom⟩ : ∃ less, room = less + 1 := ⟨room - 1, by omega⟩
  have hstart := recalls_empty env capacity
  rw [show max capacity 1 = less + 1 by omega] at hstart
  have hs : s.Recalls env (less + 1) requests := by
    rw [show s = _ from runQueries_eq_runSteps env history _]
    exact hstart.runSteps hclock _
  obtain ⟨es, hrecent, hleast⟩ := hs.listed
  rw [hroom]
  constructor
  · rw [← hleast.keys]
    exact (hrecent.perm.map CacheEntry.key).symm
  · intro e he
    obtain ⟨since, hstint, huses⟩ := hleast.uses e (hrecent.perm.symm.subset he)
    exact ⟨since, ⟨hstint, huses⟩, fun other hother => hother.1.unique hstint⟩

/-- With room for two, the text that rust rejects is used twice, is evicted, and comes in again; there
is no query for cobol. -/
def evictingHistory : List QueryOperation :=
  [.compile ⟨"rust", sharedText⟩, .validate ⟨"rust", sharedText⟩, .preload ["python", "cobol"],
    .compile ⟨"python", sharedText⟩, .sweep, .compile ⟨"rust", sharedText⟩,
    .compile ⟨"cobol", sharedText⟩, .compile ⟨"rust", sharedText⟩]

def evictingRun : Services := (ofCache (.empty 2 0)).runQueries countingEnvironment evictingHistory

/-- The uses before the eviction are forgotten. -/
theorem cached_mostRecent_evictingHistory :
    StrictMono countingEnvironment.clock ∧
      (evictingRun.cache.entries.map CacheEntry.key).Perm
        [⟨"rust", sharedText⟩, ⟨"python", sharedText⟩] ∧
      evictingRun.cache.entries.map CacheEntry.uses = [2, 1] := by
  have hclock : StrictMono countingEnvironment.clock := strictMono_id
  have hrecent : mostRecent 2 (requestedKeys (evictingHistory.flatMap QueryOperation.steps)) =
      [⟨"rust", sharedText⟩, ⟨"python", sharedText⟩] := by decide +kernel
  obtain ⟨hkeys, -⟩ := cached_mostRecent countingEnvironment hclock 2 evictingHistory
  rw [show max 1 2 = 2 from rfl, hrecent] at hkeys
  refine ⟨hclock, ?_, by decide +kernel⟩
  rw [evictingRun]
  exact hkeys

end Services

end SourceBlocks
