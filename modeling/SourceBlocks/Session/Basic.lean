import SourceBlocks.Extraction.Services
import SourceBlocks.Language.Detection

/-! # Sessions

The shared services and the memory of the language detector, together all that one file leaves behind
for the next. -/

namespace SourceBlocks

/-- The services and the detector of a run. -/
structure Session where
  services : Services
  detector : Detector

namespace Session

def ofSettings (s : Settings) : Session := ⟨.ofSettings s, .empty⟩

def detect (st : Session) (path : String) : Option String × Session :=
  let (language, detector) := st.detector.detect path
  (language, { st with detector })

/-- The limit for the bytes of a file. -/
def maxFileBytes (st : Session) (settings : Settings) (path : String) : Nat × Session :=
  match st.detect path with
  | (some language, st) => ((settings.tuning language).maxFileBytes, st)
  | (none, st) => (settings.maxFileBytes, st)

def admitsSize (st : Session) (settings : Settings) (path : String) (size : Nat) : Bool × Session :=
  let (limit, st) := st.maxFileBytes settings path
  (decide (size ≤ limit), st)

end Session

end SourceBlocks
