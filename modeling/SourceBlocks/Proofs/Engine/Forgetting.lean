import SourceBlocks.Proofs.Engine.History

/-! # Engines forget

A file that is cut on its own gives the same on any engine that has all its parsers, old or new. -/

namespace SourceBlocks

namespace Engine

/-- After any history that leaves no lease out, a text gives what it gives on a new engine, and every
parser is in its place afterwards. -/
theorem chunkText_forgets_history (env : Environment) (hvalid : env.settings.invalid? = none)
    (history : List Operation) (hreturned : ((opened env).run env history).leases = [])
    (clock : Nat → Nat) (file : SourceFile) :
    let fresh : Environment := { env with clock }
    let st := ((opened env).run env history).session
    let pool := (st.chunkText env file).2.services.pool
    Session.start env = .ok (Session.opened env) ∧
      Session.start fresh = .ok (Session.opened fresh) ∧
      (st.chunkText env file).1 = ((Session.opened fresh).chunkText fresh file).1 ∧
      (∀ slot, pool.isOut slot = false) ∧ pool.usage.checkedOut = 0 := by
  intro fresh st pool
  obtain ⟨hst, hleased⟩ := good_run_opened hvalid history
  have hnew : (Session.opened fresh).Sound fresh.compiler := (good_opened fresh).session
  have hnewLeased : (Session.opened fresh).services.pool.Leased [] := (good_opened fresh).leased
  rw [hreturned] at hleased
  have hheld : ∀ language, st.services.pool.isHeld language =
      (Session.opened fresh).services.pool.isHeld language := by
    intro language
    rw [ParserPool.isHeld_eq_false hst.services.pool hleased.isOut_eq_false,
      ParserPool.isHeld_eq_false hnew.services.pool hnewLeased.isOut_eq_false]
  have hafter := Session.resumes_chunkText hst file
  have hout : ∀ slot, pool.isOut slot = false := fun slot =>
    (hafter.services.pool.out slot).trans (hleased.isOut_eq_false slot)
  -- an extraction sees nothing of a sound engine but which parsers are out, and none is on either
  refine ⟨Session.start_eq_ok hvalid, Session.start_eq_ok hvalid, ?_, hout,
    ParserPool.usage_checkedOut_eq_zero hafter.sound.services.pool hout⟩
  rw [Session.chunkText_eq hst, Session.chunkText_eq hnew]
  split
  · exact Services.extract_eq env.settings.parallelGroups clock hst.services hnew.services
      (hheld _) file
  · rfl

/-- Settings with room for one query, so that each lookup evicts the one before. -/
def tightSettings : Settings := { cacheCapacity := 1, preload := ["python"] }

/-- A checkout and its return, a query that does not compile, and parsers forgotten in between. -/
def pythonHistory : List Operation :=
  [.acquire "python", .compile ⟨"python", "(module"⟩, .evict "python", .acquire "python",
    .release ⟨"python", 0⟩, .sweep, .detect "a.py", .release ⟨"python", 1⟩, .shutdown]

/-- A file of one statement. -/
def passFile : SourceFile where
  path := "a.py"
  hash := "h"
  text := "pass"
  tree := .mk ⟨0, "module", none, true, ⟨0, 0, 0⟩, ⟨4, 0, 4⟩⟩ []

/-- The file gives after this history what it gives on a new engine whose clock stands still. -/
theorem chunkText_forgets_pythonHistory :
    let env : Environment := ⟨tightSettings, Catalogue.compiler, id⟩
    let fresh : Environment := { env with clock := fun _ => 0 }
    let st := ((opened env).run env pythonHistory).session
    (env.settings.invalid? = none ∧ ((opened env).run env pythonHistory).leases = []) ∧
      (st.chunkText env passFile).1 = ((Session.opened fresh).chunkText fresh passFile).1 := by
  intro env fresh st
  have hvalid : env.settings.invalid? = none := by decide
  have hreturned : ((opened env).run env pythonHistory).leases = [] := by decide +kernel
  exact ⟨⟨hvalid, hreturned⟩,
    (chunkText_forgets_history env hvalid pythonHistory hreturned _ passFile).2.2.1⟩

end Engine

end SourceBlocks
