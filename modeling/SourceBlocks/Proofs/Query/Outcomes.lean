import SourceBlocks.Proofs.Query.WellFormed

/-! # What a request comes to

A request hits, or its text is compiled anew, or its language has no grammar. Each way says what is
answered, what is reported, and which entry the key has afterwards. -/

namespace SourceBlocks

/-- What a request came to: whether it was a hit, its handle, the failure that it reported, and the
entry that its key has afterwards. -/
structure RequestOutcome where
  key : QueryKey
  hit : Bool
  handle : Option QueryHandle
  failure : Option Failure
  entry : Option CacheEntry

/-- A text that is compiled anew and does not compile is reported. -/
def QueryKey.rejection? {α : Type} (key : QueryKey) : Except String α → Option Failure
  | .ok _ => none
  | .error message => some (.queryRejected key.language message)

namespace CacheEntry

/-- What is remembered of a compilation: its query, or the reason why there is none. -/
def ofResult (key : QueryKey) (result : Except String QueryHandle) (now : Nat) : CacheEntry :=
  match result with
  | .ok handle => ⟨key, some handle, true, none, now, 1⟩
  | .error message => ⟨key, none, false, some message, now, 1⟩

@[simp]
theorem key_ofResult (key : QueryKey) (result : Except String QueryHandle) (now : Nat) :
    (ofResult key result now).key = key := by
  cases result <;> rfl

@[simp]
theorem lastUsed_ofResult (key : QueryKey) (result : Except String QueryHandle) (now : Nat) :
    (ofResult key result now).lastUsed = now := by
  cases result <;> rfl

@[simp]
theorem uses_ofResult (key : QueryKey) (result : Except String QueryHandle) (now : Nat) :
    (ofResult key result now).uses = 1 := by
  cases result <;> rfl

@[simp]
theorem handle?_ofResult (key : QueryKey) (result : Except String QueryHandle) (now : Nat) :
    (ofResult key result now).handle? = result.toOption := by
  cases result <;> rfl

end CacheEntry

namespace QueryCache

/-- A request that can be answered from the cache: its key has an entry, which has not expired. -/
def isHit (c : QueryCache) (now : Nat) (key : QueryKey) : Bool :=
  (c.find? key).any fun e => !c.isExpired now e

def outcome (c : QueryCache) (compiler : QueryCompiler) (now : Nat) (key : QueryKey) :
    RequestOutcome :=
  let answer := c.request compiler now key
  { key
    hit := c.isHit now key
    handle := answer.handle
    failure := answer.failure
    entry := answer.cache.find? key }

/-- What becomes of a text that is compiled anew, with a handle of the next number if it compiles. -/
def compileResult (c : QueryCache) (compiler : QueryCompiler) (key : QueryKey) :
    Except String QueryHandle :=
  (compiler key.language key.text).map fun program => ⟨c.nextSerial, key, program⟩

variable {compiler : QueryCompiler} {now : Nat} {c : QueryCache} {key : QueryKey}
  {e : CacheEntry}

theorem isExpired_eq_true_iff :
    c.isExpired now e = true ↔ c.ttl ≠ 0 ∧ c.ttl < now - e.lastUsed := by
  simp [isExpired]

theorem isHit_iff_find? : c.isHit now key = true ↔
    ∃ e, c.find? key = some e ∧ c.isExpired now e = false := by
  rw [isHit, Option.any_eq_true]
  simp

theorem isHit_of_find?_eq_none (h : c.find? key = none) (now : Nat) :
    c.isHit now key = false := by
  rw [isHit, h]
  rfl

/-- A hit counts one more use of the entry and answers from it. -/
theorem request_of_hit (hfound : c.find? key = some e) (hlive : c.isExpired now e = false)
    (compiler : QueryCompiler) :
    c.request compiler now key =
      { handle := e.handle?, cache := c.touch now key, failure := none } := by
  rw [request, hfound]
  simp only [hlive, Bool.false_eq_true, if_false]

theorem erase_of_find?_eq_none (h : c.find? key = none) : c.erase key = c := by
  have hall : c.entries.filter (fun e => e.key != key) = c.entries := by
    rw [List.filter_eq_self]
    intro e he
    have hmiss := List.find?_eq_none.1 h e he
    simpa using hmiss
  rw [erase, hall]

/-- Without a hit the text is compiled anew, in a cache that has no entry of the key. -/
theorem request_of_miss (hmiss : c.isHit now key = false) (compiler : QueryCompiler) :
    c.request compiler now key = (c.erase key).compileNew compiler now key := by
  rw [request]
  cases hfound : c.find? key with
  | none => rw [erase_of_find?_eq_none hfound]
  | some e =>
    have hexpired : c.isExpired now e = true := by
      rw [isHit, hfound] at hmiss
      simpa using hmiss
    exact if_pos hexpired

/-- Nothing else compiles a text meanwhile, so its key is still not there when its entry is put in. -/
theorem remember_of_find?_eq_none (hnone : c.find? e.key = none) (now : Nat) :
    c.remember now e = (e.handle?, c.insert e) := by
  rw [remember, hnone]

theorem compileNew_of_grammar (hgrammar : Language.hasGrammar key.language = true)
    (hnone : c.find? key = none) (compiler : QueryCompiler) (now : Nat) :
    c.compileNew compiler now key =
      { handle := (c.compileResult compiler key).toOption
        cache := { c.insert (.ofResult key (c.compileResult compiler key) now) with
          nextSerial := c.nextSerial + (c.compileResult compiler key).toOption.toList.length }
        failure := key.rejection? (c.compileResult compiler key) } := by
  unfold compileNew compileResult
  rw [if_pos hgrammar]
  cases compiler key.language key.text with
  | ok program =>
    dsimp only
    rw [remember_of_find?_eq_none hnone]
    rfl
  | error message =>
    have hserial : (c.insert ⟨key, none, false, some message, now, 1⟩).nextSerial =
        c.nextSerial := by
      show c.makeRoom.nextSerial = c.nextSerial
      rw [makeRoom_eq]
    dsimp only
    rw [remember_of_find?_eq_none hnone]
    simp [Except.map, Except.toOption, QueryKey.rejection?, CacheEntry.ofResult, ← hserial]

theorem compileNew_of_no_grammar (hnone : Language.hasGrammar key.language = false)
    (c : QueryCache) (compiler : QueryCompiler) (now : Nat) :
    c.compileNew compiler now key =
      { handle := none, cache := c, failure := some (.unsupportedLanguage key.language) } := by
  rw [compileNew, if_neg (by simp [hnone])]

theorem outcome_of_hit (hfound : c.find? key = some e) (hlive : c.isExpired now e = false)
    (compiler : QueryCompiler) :
    c.outcome compiler now key =
      { key, hit := true, handle := e.handle?, failure := none, entry := some (e.touch now) } := by
  have hhit : c.isHit now key = true := isHit_iff_find?.2 ⟨e, hfound, hlive⟩
  have hkey : e.key = key := by simpa using List.find?_some hfound
  have hentry : (c.entries.map (CacheEntry.touchKey key now)).find? (·.key == key) =
      some (e.touch now) := by
    have hsame : (fun d : CacheEntry => d.key == key) ∘ CacheEntry.touchKey key now =
        fun d => d.key == key := by
      funext d
      simp only [Function.comp_apply, CacheEntry.key_touchKey]
    rw [List.find?_map, hsame, show c.entries.find? _ = some e from hfound, Option.map_some,
      CacheEntry.touchKey, if_pos hkey]
  rw [outcome, hhit, request_of_hit hfound hlive]
  exact congrArg (RequestOutcome.mk key true e.handle? none) hentry

theorem outcome_of_miss (hmiss : c.isHit now key = false)
    (hgrammar : Language.hasGrammar key.language = true) (compiler : QueryCompiler) :
    c.outcome compiler now key =
      { key, hit := false
        handle := (c.compileResult compiler key).toOption
        failure := key.rejection? (c.compileResult compiler key)
        entry := some (.ofResult key (c.compileResult compiler key) now) } := by
  rw [outcome, hmiss, request_of_miss hmiss,
    compileNew_of_grammar hgrammar (c.find?_erase key)]
  have hentry : (CacheEntry.ofResult key (c.compileResult compiler key) now ::
      (c.erase key).makeRoom.entries).find? (·.key == key) =
        some (.ofResult key (c.compileResult compiler key) now) :=
    List.find?_cons_of_pos (by simp)
  exact congrArg (RequestOutcome.mk key false _ _) hentry

theorem outcome_of_no_grammar (hmiss : c.isHit now key = false)
    (hnone : Language.hasGrammar key.language = false) (compiler : QueryCompiler) :
    c.outcome compiler now key =
      { key, hit := false, handle := none
        failure := some (.unsupportedLanguage key.language), entry := none } := by
  rw [outcome, hmiss, request_of_miss hmiss, compileNew_of_no_grammar hnone]
  exact congrArg (RequestOutcome.mk key false none _) (c.find?_erase key)

theorem ttl_makeRoom (c : QueryCache) : c.makeRoom.ttl = c.ttl := by
  rw [makeRoom_eq]

theorem ttl_request (c : QueryCache) (compiler : QueryCompiler) (now : Nat) (key : QueryKey) :
    (c.request compiler now key).cache.ttl = c.ttl := by
  cases hhit : c.isHit now key with
  | true =>
    obtain ⟨e, hfound, hlive⟩ := isHit_iff_find?.1 hhit
    rw [request_of_hit hfound hlive]
    rfl
  | false =>
    rw [request_of_miss hhit]
    cases hgrammar : Language.hasGrammar key.language with
    | false => rw [compileNew_of_no_grammar hgrammar]; rfl
    | true =>
      rw [compileNew_of_grammar hgrammar (c.find?_erase key)]
      exact (c.erase key).ttl_makeRoom

end QueryCache

end SourceBlocks
