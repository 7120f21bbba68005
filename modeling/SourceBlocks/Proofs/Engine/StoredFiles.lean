import SourceBlocks.Proofs.Engine.History
import SourceBlocks.Proofs.Text.Decoding

/-! # Stored files

A stored file is measured twice: its bytes when it is checked, and its text before it is cut. Where
bytes are ill-formed the text is longer, so that a file may pass the check and be passed over as too
large all the same. -/

namespace SourceBlocks

namespace Services

theorem extractParsed_ne_fileTooLarge (s : Services) (env : Environment) (language : String)
    (file : SourceFile) : (s.extractParsed env language file).1 ≠ .skipped .fileTooLarge := by
  rw [extractParsed]
  rcases s.precheck_cases language file.toSourceText with ⟨-, hp⟩ | ⟨-, -, hp⟩ | ⟨-, -, hp⟩
  · simp [hp]
  · simp [hp]
  · simp [hp, extractFromRoot]

/-- Only the measure of its bytes makes a file too large. -/
theorem extract_ne_fileTooLarge (s : Services) (env : Environment) (language : String)
    (file : SourceFile) : (s.extract env language file).1 ≠ .skipped .fileTooLarge := by
  rw [extract]
  rcases s.precheck_cases language file.toSourceText with ⟨-, hp⟩ | ⟨-, -, hp⟩ | ⟨-, -, hp⟩
  · simp [hp]
  · simp [hp]
  · rw [hp]
    dsimp only
    split
    case h_1 => simp
    case h_2 lease s' _ => exact s'.extractParsed_ne_fileTooLarge env language file

end Services

namespace Session

variable {compiler : QueryCompiler} {st : Session}

theorem rejectBytes?_eq_none_iff (h : st.Sound compiler) (settings : Settings) (path : String)
    (bytes : List UInt8) :
    (st.rejectBytes? settings path bytes).1 = none ↔
      bytes ≠ [] ∧ bytes.length ≤ settings.byteLimit path ∧ 0 ∉ bytes.take sniffedBytes := by
  have hlimit := maxFileBytes_eq h settings path
  rw [rejectBytes?]
  split
  case isTrue hempty => simp [List.isEmpty_iff.1 hempty]
  case isFalse hempty =>
    rw [List.isEmpty_iff] at hempty
    dsimp only
    rw [hlimit]
    split
    case isTrue hlarge => simp; omega
    case isFalse hfits =>
      split
      case isTrue hzero => simp [List.contains_iff_mem.1 hzero]
      case isFalse hzero =>
        have hnone : 0 ∉ bytes.take sniffedBytes := fun h => hzero (List.contains_iff_mem.2 h)
        simp [hempty, hnone, Nat.not_lt.1 hfits]

/-- A file passes the check when its name is not turned away and it has bytes, no more of them than
its path may have, and no zero byte among the first. -/
theorem check_eq_none_iff (h : st.Sound compiler) (settings : Settings) (store : FileStore)
    (path : String) :
    (st.check settings store path).1 = none ↔
      settings.rejectName? path = none ∧ ∃ bytes, store.lookup path = .ok (.regular bytes) ∧
        bytes ≠ [] ∧ bytes.length ≤ settings.byteLimit path ∧ 0 ∉ bytes.take sniffedBytes := by
  rw [check]
  split
  case h_1 r hname => simp [hname]
  case h_2 hname =>
    split
    case h_1 hlookup => simp [hlookup]
    case h_2 e _ hlookup => simp [hlookup]
    case h_3 hlookup => simp [hlookup]
    case h_4 bytes hlookup =>
      have hbytes := rejectBytes?_eq_none_iff h settings path bytes
      simp [hname, hlookup, hbytes]

/-- A file that passes the check is cut as its text is, within the limit of its path. -/
theorem chunkFile_eq {env : Environment} (h : st.Sound env.compiler) {store : FileStore}
    {path : String} (haccepted : (st.check env.settings store path).1 = none) {file : SourceText}
    (hread : SourceText.ofStore store path = .ok file) (parse : SourceText → Node) :
    (st.chunkFile env store parse path).1 = .ok
      (if file.text.utf8ByteSize ≤ env.settings.byteLimit file.path then
        (st.services.extract env (Detection.keyOf file.path) { file with tree := parse file }).1
      else .skipped .fileTooLarge) := by
  have hchecked := resumes_check h env.settings store path
  rw [chunkFile]
  split
  case h_1 failure st' hcheck => simp [hcheck] at haccepted
  case h_2 st' hcheck =>
    rw [hcheck] at hchecked
    rw [hread]
    dsimp only
    rw [chunkText_eq hchecked.sound, hchecked.extract_eq h]

end Session

namespace Engine

open Text in
/-- After any history, a file that passes the check is read and gives a result. It is passed over as
too large exactly when its bytes, and those by which their ill-formed parts grow, are over the limit of
its path; a file that holds the encoding of a text never is. -/
theorem accepted_tooLarge_iff (env : Environment) (hvalid : env.settings.invalid? = none)
    (history : List Operation) (store : FileStore) (parse : SourceText → Node) (path : String)
    (haccepted : (((opened env).run env history).session.check env.settings store path).1 = none) :
    let st := ((opened env).run env history).session
    ∃ bytes parts outcome, store.read path = .ok bytes ∧ Parts bytes parts ∧
      (st.chunkFile env store parse path).1 = .ok outcome ∧
      (outcome = .skipped .fileTooLarge ↔
        env.settings.byteLimit path < bytes.length + (parts.map Part.growth).sum) ∧
      ∀ cs : List Char, bytes = cs.flatMap String.utf8EncodeChar →
        outcome ≠ .skipped .fileTooLarge := by
  intro st
  have hst : st.Sound env.compiler := (good_run_opened hvalid history).session
  obtain ⟨-, bytes, hlookup, -, hfits, -⟩ :=
    (Session.check_eq_none_iff hst env.settings store path).1 haccepted
  obtain ⟨parts, hparts⟩ := exists_parts bytes
  have hread : store.read path = .ok bytes := by rw [FileStore.read, hlookup]
  have hfile : SourceText.ofStore store path =
      .ok { path, hash := Digest.hashText (decodeLossy bytes), text := decodeLossy bytes } := by
    rw [SourceText.ofStore, hread]
  refine ⟨bytes, parts, _, hread, hparts, Session.chunkFile_eq hst haccepted hfile parse, ?_, ?_⟩
  · rw [← hparts.utf8ByteSize_decodeLossy]
    split
    case isTrue hadmitted =>
      exact iff_of_false (Services.extract_ne_fileTooLarge _ _ _ _) (Nat.not_lt.2 hadmitted)
    case isFalse hover => exact iff_of_true rfl (Nat.not_le.1 hover)
  · intro cs hcs
    have hsize : (decodeLossy bytes).utf8ByteSize = bytes.length := by
      rw [hcs, decodeLossy_encoded, utf8ByteSize_ofList, length_encoded]
    rw [if_pos (hsize.trans_le hfits)]
    exact Services.extract_ne_fileTooLarge _ _ _ _

/-- Settings that take files of six bytes. -/
def sixBytes : Settings := { maxFileBytes := 6, preload := [] }

/-- A statement of six bytes with a letter beyond ASCII, once in UTF-8 and once in Latin-1. -/
def letterFiles : FileStore :=
  (FileStore.empty.add "a.py" (.regular [0x78, 0x3D, 0x22, 0xC3, 0xA9, 0x22])).add "b.py"
    (.regular [0x78, 0x3D, 0x22, 0xE9, 0x22, 0x0A])

/-- The tree of a module with nothing in it. -/
def bareModule (file : SourceText) : Node :=
  .mk ⟨0, "module", none, true, ⟨0, 0, 0⟩, ⟨file.text.utf8ByteSize, 0, file.text.utf8ByteSize⟩⟩ []

/-- The file in UTF-8 has as many bytes as it may, and is cut. -/
theorem accepted_tooLarge_utf8Letter :
    let env : Environment := ⟨sixBytes, Catalogue.compiler, id⟩
    let st := ((opened env).run env [.detect "a.py"]).session
    (env.settings.invalid? = none ∧ (st.check env.settings letterFiles "a.py").1 = none) ∧
      ∃ outcome, (st.chunkFile env letterFiles bareModule "a.py").1 = .ok outcome ∧
        outcome ≠ .skipped .fileTooLarge := by
  intro env st
  have hvalid : env.settings.invalid? = none := by decide
  have haccepted : (st.check env.settings letterFiles "a.py").1 = none := by decide +kernel
  obtain ⟨bytes, parts, outcome, hread, -, houtcome, -, hencoded⟩ :=
    accepted_tooLarge_iff env hvalid [.detect "a.py"] letterFiles bareModule "a.py" haccepted
  have hbytes : letterFiles.read "a.py" =
      .ok (['x', '=', '"', 'é', '"'].flatMap String.utf8EncodeChar) := by decide +kernel
  rw [hbytes] at hread
  exact ⟨⟨hvalid, haccepted⟩, outcome, houtcome, hencoded _ (Except.ok.inj hread).symm⟩

/-- The file in Latin-1 passes the check with six bytes; its text has eight, and is passed over as too
large. -/
theorem accepted_skips_latin1Letter :
    let env : Environment := ⟨sixBytes, Catalogue.compiler, id⟩
    let st := Session.opened env
    env.settings.invalid? = none ∧ (st.check env.settings letterFiles "b.py").1 = none ∧
      (st.chunkFile env letterFiles bareModule "b.py").1 = .ok (.skipped .fileTooLarge) := by
  exact ⟨by decide, by decide +kernel, by decide +kernel⟩

end Engine

end SourceBlocks
