import SourceBlocks.Proofs.Query.Sound

/-! # Shape of the query cache

Whatever is requested, swept or cleared, a cache holds each key once and no more entries than it has
room for. Each entry says of its key what the compiler says of it. -/

namespace SourceBlocks

namespace CacheEntry

/-- The fields of an entry agree: it is valid just when it has a query, and it has a query just when it
has no error. -/
structure Agrees (e : CacheEntry) : Prop where
  valid : e.isValid = true ↔ e.handle?.isSome = true
  error : e.handle?.isSome = true ↔ e.error? = none

/-- The entry has the program that the compiler makes for its key, or the compiler's reason why there
is none. -/
structure Reflects (compiler : QueryCompiler) (e : CacheEntry) : Prop where
  handle : e.handle?.map QueryHandle.content =
    (compiler e.key.language e.key.text).toOption.map fun program => (e.key, program)
  error : ∀ message, e.error? = some message ↔
    compiler e.key.language e.key.text = .error message

/-- An entry is of a language with a grammar, was used, agrees with itself, and says what the compiler
says. -/
structure WellFormed (compiler : QueryCompiler) (e : CacheEntry) : Prop where
  grammar : Language.hasGrammar e.key.language = true
  used : 1 ≤ e.uses
  agrees : e.Agrees
  reflects : e.Reflects compiler

variable {compiler : QueryCompiler} {e : CacheEntry}

/-- The entry of a text that compiled. -/
theorem wellFormed_of_ok {key : QueryKey} {program : Program}
    (hgrammar : Language.hasGrammar key.language = true)
    (hcompiled : compiler key.language key.text = .ok program) (serial now : Nat) :
    WellFormed compiler ⟨key, some ⟨serial, key, program⟩, true, none, now, 1⟩ where
  grammar := hgrammar
  used := Nat.le_refl 1
  agrees := ⟨iff_of_true rfl rfl, iff_of_true rfl rfl⟩
  reflects := by
    constructor
    · simp [hcompiled, Except.toOption, QueryHandle.content]
    · simp [hcompiled]

/-- The entry of a text that did not compile. -/
theorem wellFormed_of_error {key : QueryKey} {message : String}
    (hgrammar : Language.hasGrammar key.language = true)
    (hcompiled : compiler key.language key.text = .error message) (now : Nat) :
    WellFormed compiler ⟨key, none, false, some message, now, 1⟩ where
  grammar := hgrammar
  used := Nat.le_refl 1
  agrees := ⟨iff_of_false (by simp) (by simp), iff_of_false (by simp) (by simp)⟩
  reflects := by
    constructor
    · simp [hcompiled, Except.toOption]
    · simp [hcompiled]

/-- An entry is valid just when the compiler accepts its key. -/
theorem WellFormed.isValid_iff (h : e.WellFormed compiler) :
    e.isValid = true ↔ ∃ program, compiler e.key.language e.key.text = .ok program := by
  have hhandle := congrArg Option.isSome h.reflects.handle
  rw [Option.isSome_map, Option.isSome_map] at hhandle
  rw [h.agrees.valid, hhandle]
  cases compiler e.key.language e.key.text with
  | ok program => simp [Except.toOption]
  | error message => simp [Except.toOption]

theorem WellFormed.answers (h : e.WellFormed compiler) : compiler.Answers e.key e.handle? := by
  unfold QueryCompiler.Answers QueryCompiler.program?
  rw [if_pos h.grammar]
  exact h.reflects.handle

theorem WellFormed.touchKey (h : e.WellFormed compiler) (key : QueryKey) (now : Nat) :
    (e.touchKey key now).WellFormed compiler := by
  unfold CacheEntry.touchKey
  split
  · have hmore : 1 ≤ e.uses + 1 := Nat.le_add_left 1 e.uses
    exact ⟨h.grammar, hmore, ⟨h.agrees.valid, h.agrees.error⟩,
      ⟨h.reflects.handle, h.reflects.error⟩⟩
  · exact h

theorem key_touchKey (key : QueryKey) (now : Nat) (e : CacheEntry) :
    (e.touchKey key now).key = e.key := by
  unfold CacheEntry.touchKey
  split <;> rfl

end CacheEntry

namespace QueryCache

/-- Room for some entries, at least one; no more entries than that, each key once, and nothing but
what the compiler says. -/
structure WellFormed (compiler : QueryCompiler) (room : Nat) (c : QueryCache) : Prop where
  pos : 0 < room
  capacity : c.capacity = room
  size : c.entries.length ≤ room
  once : (c.entries.map CacheEntry.key).Nodup
  entry : ∀ e ∈ c.entries, e.WellFormed compiler

variable {compiler : QueryCompiler} {room : Nat} {c d : QueryCache}

theorem wellFormed_empty (compiler : QueryCompiler) (capacity ttl : Nat) :
    (empty capacity ttl).WellFormed compiler (max capacity 1) where
  pos := Nat.lt_of_lt_of_le Nat.one_pos (Nat.le_max_right capacity 1)
  capacity := rfl
  size := Nat.zero_le _
  once := List.Pairwise.nil
  entry _ he := absurd he List.not_mem_nil

theorem WellFormed.sound (h : c.WellFormed compiler room) : c.Sound compiler :=
  fun e he => (h.entry e he).answers

theorem WellFormed.of_sublist (h : c.WellFormed compiler room) (hcapacity : d.capacity = c.capacity)
    (hsub : d.entries.Sublist c.entries) : d.WellFormed compiler room where
  pos := h.pos
  capacity := hcapacity.trans h.capacity
  size := Nat.le_trans hsub.length_le h.size
  once := h.once.sublist (hsub.map CacheEntry.key)
  entry e he := h.entry e (hsub.subset he)

theorem WellFormed.erase (h : c.WellFormed compiler room) (key : QueryKey) :
    (c.erase key).WellFormed compiler room := h.of_sublist rfl List.filter_sublist

theorem WellFormed.sweep (h : c.WellFormed compiler room) (now : Nat) :
    (c.sweep now).2.WellFormed compiler room := h.of_sublist rfl List.filter_sublist

theorem WellFormed.clear (h : c.WellFormed compiler room) : c.clear.WellFormed compiler room :=
  h.of_sublist rfl (List.nil_sublist _)

theorem oldest?_mem (entries : List CacheEntry) :
    ∀ {e : CacheEntry}, oldest? entries = some e → e ∈ entries := by
  induction entries with
  | nil => intro e h; exact absurd h (by simp [oldest?])
  | cons first rest ih =>
    intro e h
    rw [oldest?] at h
    cases hrest : oldest? rest with
    | none =>
      have hfirst : first = e := by simpa [hrest] using h
      exact hfirst ▸ List.mem_cons_self
    | some o =>
      have hchosen : (if o.lastUsed < first.lastUsed then o else first) = e := by
        simpa [hrest] using h
      split at hchosen
      · exact hchosen ▸ List.mem_cons_of_mem _ (ih hrest)
      · exact hchosen ▸ List.mem_cons_self

theorem oldest?_isSome {entries : List CacheEntry} (h : entries ≠ []) :
    (oldest? entries).isSome = true := by
  cases entries with
  | nil => exact absurd rfl h
  | cons first rest => rfl

theorem length_erase_lt {e : CacheEntry} (he : e ∈ c.entries) :
    (c.erase e.key).entries.length < c.entries.length := by
  have hdropped : ¬ (e.key != e.key) = true := by simp
  exact List.length_filter_lt_length_iff_exists.2 ⟨e, he, hdropped⟩

theorem makeRoom_sublist (c : QueryCache) : c.makeRoom.entries.Sublist c.entries := by
  unfold makeRoom
  split
  · exact .refl _
  · split
    · exact List.filter_sublist
    · exact .refl _

/-- Making room concerns the entries only. -/
theorem makeRoom_eq (c : QueryCache) : c.makeRoom = { c with entries := c.makeRoom.entries } := by
  unfold makeRoom
  split
  · rfl
  · split <;> rfl

theorem capacity_makeRoom (c : QueryCache) : c.makeRoom.capacity = c.capacity := by
  rw [makeRoom_eq]

/-- A full cache drops one entry, so that another one fits. -/
theorem WellFormed.length_makeRoom (h : c.WellFormed compiler room) :
    c.makeRoom.entries.length + 1 ≤ room := by
  unfold QueryCache.makeRoom
  split
  case isTrue hfits => exact h.capacity ▸ hfits
  case isFalse hfull =>
    rw [h.capacity] at hfull
    have hsome : (oldest? c.entries).isSome = true := by
      apply oldest?_isSome
      intro hnil
      rw [hnil, List.length_nil] at hfull
      exact hfull h.pos
    obtain ⟨e, he⟩ := Option.isSome_iff_exists.1 hsome
    have hless := length_erase_lt (oldest?_mem c.entries he)
    have hsize := h.size
    simp only [he]
    omega

theorem WellFormed.insert (h : c.WellFormed compiler room) {e : CacheEntry}
    (hnew : e.key ∉ c.entries.map CacheEntry.key) (hentry : e.WellFormed compiler) :
    (c.insert e).WellFormed compiler room := by
  have hkept := h.of_sublist (capacity_makeRoom c) (makeRoom_sublist c)
  have hsub := c.makeRoom_sublist.map CacheEntry.key
  constructor
  · exact h.pos
  · exact hkept.capacity
  · exact h.length_makeRoom
  · exact List.nodup_cons.2 ⟨fun hmem => hnew (hsub.subset hmem), hkept.once⟩
  · intro d hd
    rcases List.mem_cons.1 hd with rfl | hold
    · exact hentry
    · exact hkept.entry d hold

theorem not_mem_keys_of_find?_eq_none {key : QueryKey} (h : c.find? key = none) :
    key ∉ c.entries.map CacheEntry.key := by
  intro hmem
  obtain ⟨e, he, hkey⟩ := List.mem_map.1 hmem
  have hmiss := List.find?_eq_none.1 h e he
  exact hmiss (by simp [hkey])

theorem not_mem_keys_erase (c : QueryCache) (key : QueryKey) :
    key ∉ (c.erase key).entries.map CacheEntry.key := by
  intro hmem
  obtain ⟨e, he, hkey⟩ := List.mem_map.1 hmem
  have hother := (List.mem_filter.1 he).2
  simp [hkey] at hother

theorem find?_erase (c : QueryCache) (key : QueryKey) : (c.erase key).find? key = none := by
  rw [find?, List.find?_eq_none]
  intro e he hkey
  exact c.not_mem_keys_erase key (List.mem_map.2 ⟨e, he, by simpa using hkey⟩)

theorem WellFormed.touch (h : c.WellFormed compiler room) (now : Nat) (key : QueryKey) :
    (c.touch now key).WellFormed compiler room where
  pos := h.pos
  capacity := h.capacity
  size := by
    show (c.entries.map (CacheEntry.touchKey key now)).length ≤ room
    rw [List.length_map]
    exact h.size
  once := by
    have hkeys : (c.entries.map (CacheEntry.touchKey key now)).map CacheEntry.key =
        c.entries.map CacheEntry.key := by
      rw [List.map_map]
      exact List.map_congr_left fun e _ => CacheEntry.key_touchKey key now e
    show ((c.entries.map (CacheEntry.touchKey key now)).map CacheEntry.key).Nodup
    rw [hkeys]
    exact h.once
  entry e he := by
    obtain ⟨old, hold, rfl⟩ := List.mem_map.1 he
    exact (h.entry old hold).touchKey key now

theorem WellFormed.remember (h : c.WellFormed compiler room) (now : Nat) {e : CacheEntry}
    (hentry : e.WellFormed compiler) : (c.remember now e).2.WellFormed compiler room := by
  unfold QueryCache.remember
  split
  case h_1 => exact h.touch now e.key
  case h_2 hnone => exact h.insert (not_mem_keys_of_find?_eq_none hnone) hentry

/-- What is compiled anew is remembered as it was compiled. -/
theorem WellFormed.compileNew (h : c.WellFormed compiler room) (now : Nat) (key : QueryKey) :
    (c.compileNew compiler now key).cache.WellFormed compiler room := by
  unfold QueryCache.compileNew
  split
  case isTrue hgrammar =>
    cases hcompiled : compiler key.language key.text with
    | ok program =>
      have hkept := h.remember now
        (CacheEntry.wellFormed_of_ok hgrammar hcompiled c.nextSerial now)
      exact ⟨h.pos, hkept.capacity, hkept.size, hkept.once, hkept.entry⟩
    | error message =>
      exact h.remember now (CacheEntry.wellFormed_of_error hgrammar hcompiled now)
  case isFalse => exact h

/-- A request keeps the shape of a cache: on a hit, after expiry, for a new text, for one that does
not compile, and for a language without a grammar. -/
theorem WellFormed.request (h : c.WellFormed compiler room) (now : Nat) (key : QueryKey) :
    (c.request compiler now key).cache.WellFormed compiler room := by
  rw [QueryCache.request]
  split
  case h_1 => exact h.compileNew now key
  case h_2 e hfound =>
    split
    · exact (h.erase key).compileNew now key
    · exact h.touch now key

end QueryCache

end SourceBlocks
