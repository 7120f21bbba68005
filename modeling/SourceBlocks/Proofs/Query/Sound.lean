import SourceBlocks.Query.Cache

/-! # Soundness of the query cache

A cache never answers anything that the compiler would not answer. What is evicted, expired or
cleared only costs a compilation. -/

namespace SourceBlocks

/-- The program that a compiler has for a key; a language without a grammar has none. -/
def QueryCompiler.program? (compiler : QueryCompiler) (key : QueryKey) : Option Program :=
  if Language.hasGrammar key.language then (compiler key.language key.text).toOption else none

def QueryHandle.content (h : QueryHandle) : QueryKey × Program := (h.key, h.program)

/-- A handle holds the program of exactly this key, and there is none where the key has no
program. -/
def QueryCompiler.Answers (compiler : QueryCompiler) (key : QueryKey)
    (handle : Option QueryHandle) : Prop :=
  handle.map QueryHandle.content = (compiler.program? key).map fun program => (key, program)

theorem QueryCompiler.Answers.program_eq {compiler : QueryCompiler} {key : QueryKey}
    {handle : Option QueryHandle} (h : compiler.Answers key handle) :
    handle.map QueryHandle.program = compiler.program? key := by
  have hsnd := congrArg (Option.map Prod.snd) h
  rw [Option.map_map, Option.map_map] at hsnd
  rw [show QueryHandle.program = Prod.snd ∘ QueryHandle.content from rfl, hsnd]
  exact Option.map_id' ..

namespace QueryCache

/-- Each entry answers for its key as the compiler does. -/
def Sound (compiler : QueryCompiler) (c : QueryCache) : Prop :=
  ∀ e ∈ c.entries, compiler.Answers e.key e.handle?

variable {compiler : QueryCompiler} {c d : QueryCache}

theorem sound_empty (compiler : QueryCompiler) (capacity ttl : Nat) :
    (empty capacity ttl).Sound compiler := by
  intro e he
  exact absurd he List.not_mem_nil

theorem Sound.of_sublist (h : c.Sound compiler) (hsub : d.entries.Sublist c.entries) :
    d.Sound compiler :=
  fun e he => h e (hsub.subset he)

theorem Sound.erase (h : c.Sound compiler) (key : QueryKey) : (c.erase key).Sound compiler :=
  h.of_sublist List.filter_sublist

theorem Sound.sweep (h : c.Sound compiler) (now : Nat) : (c.sweep now).2.Sound compiler :=
  h.of_sublist List.filter_sublist

theorem Sound.clear (h : c.Sound compiler) : c.clear.Sound compiler :=
  h.of_sublist (List.nil_sublist _)

theorem Sound.makeRoom (h : c.Sound compiler) : c.makeRoom.Sound compiler := by
  rw [QueryCache.makeRoom]
  split
  · exact h
  · split
    · exact h.erase _
    · exact h

theorem Sound.insert (h : c.Sound compiler) {e : CacheEntry}
    (hentry : compiler.Answers e.key e.handle?) : (c.insert e).Sound compiler := by
  intro d hd
  rcases List.mem_cons.1 hd with rfl | hold
  · exact hentry
  · exact h.makeRoom d hold

theorem Sound.touch (h : c.Sound compiler) (now : Nat) (key : QueryKey) :
    (c.touch now key).Sound compiler := by
  intro e he
  obtain ⟨e₀, he₀, rfl⟩ := List.mem_map.1 he
  rw [CacheEntry.touchKey]
  split
  · exact h e₀ he₀
  · exact h e₀ he₀

theorem Sound.answers_of_find? (h : c.Sound compiler) {key : QueryKey} {e : CacheEntry}
    (hfound : c.find? key = some e) : compiler.Answers key e.handle? := by
  have hkey : e.key = key := by simpa using List.find?_some hfound
  exact hkey ▸ h e (List.mem_of_find?_eq_some hfound)

/-- An entry that answers as the compiler does may be put in, or answered by the one that is there. -/
theorem Sound.remember (h : c.Sound compiler) (now : Nat) {e : CacheEntry}
    (hentry : compiler.Answers e.key e.handle?) :
    compiler.Answers e.key (c.remember now e).1 ∧ (c.remember now e).2.Sound compiler := by
  unfold QueryCache.remember
  split
  case h_1 there hthere => exact ⟨h.answers_of_find? hthere, h.touch now e.key⟩
  case h_2 => exact ⟨hentry, h.insert hentry⟩

/-- A text is compiled anew as the compiler does it, and remembered like that. -/
theorem Sound.compileNew (h : c.Sound compiler) (now : Nat) (key : QueryKey) :
    compiler.Answers key (c.compileNew compiler now key).handle ∧
      (c.compileNew compiler now key).cache.Sound compiler := by
  unfold QueryCache.compileNew
  split
  case isTrue hgrammar =>
    cases hcompiled : compiler key.language key.text with
    | ok program =>
      have hanswer : compiler.Answers key (some ⟨c.nextSerial, key, program⟩) := by
        simp [QueryCompiler.Answers, QueryCompiler.program?, QueryHandle.content, hgrammar,
          hcompiled, Except.toOption]
      exact h.remember now (e := ⟨key, some ⟨c.nextSerial, key, program⟩, true, none, now, 1⟩) hanswer
    | error message =>
      have hanswer : compiler.Answers key none := by
        simp [QueryCompiler.Answers, QueryCompiler.program?, hgrammar, hcompiled,
          Except.toOption]
      exact h.remember now (e := ⟨key, none, false, some message, now, 1⟩) hanswer
  case isFalse hgrammar =>
    exact ⟨by simp [QueryCompiler.Answers, QueryCompiler.program?, hgrammar], h⟩

/-- A sound cache answers as the compiler does, hit or miss, and stays sound. -/
theorem Sound.request (h : c.Sound compiler) (now : Nat) (key : QueryKey) :
    compiler.Answers key (c.request compiler now key).handle ∧
      (c.request compiler now key).cache.Sound compiler := by
  rw [QueryCache.request]
  split
  · exact h.compileNew now key
  case h_2 e hfound =>
    split
    · exact (h.erase key).compileNew now key
    · exact ⟨h.answers_of_find? hfound, h.touch now key⟩

end QueryCache

end SourceBlocks
