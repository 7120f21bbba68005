import SourceBlocks.Engine.Basic
import SourceBlocks.Proofs.Engine.Batch

/-! # What a session leaves for the next file

A session answers for a file by the path and the text, and leaves its services and its memory of
languages as sound as they were. -/

namespace SourceBlocks

/-- The limit for the bytes of a file at a path. -/
def Settings.byteLimit (s : Settings) (path : String) : Nat :=
  match Detection.languageOf? path with
  | some language => (s.tuning language).maxFileBytes
  | none => s.maxFileBytes

namespace Session

/-- The services are sound, and so is the memory of languages. -/
structure Sound (compiler : QueryCompiler) (st : Session) : Prop where
  services : st.services.Sound compiler
  detector : st.detector.Sound

/-- What work leaves that gives back its checkouts. -/
structure Resumes (compiler : QueryCompiler) (st after : Session) : Prop where
  services : st.services.Resumes compiler after.services
  detector : after.detector.Sound

variable {compiler : QueryCompiler} {st st' st'' : Session}

theorem Resumes.sound (h : st.Resumes compiler st') : st'.Sound compiler :=
  ⟨h.services.sound, h.detector⟩

theorem Resumes.refl (h : st.Sound compiler) : st.Resumes compiler st :=
  ⟨.refl h.services, h.detector⟩

theorem Resumes.trans (h : st.Resumes compiler st') (h' : st'.Resumes compiler st'') :
    st.Resumes compiler st'' := ⟨h.services.trans h'.services, h'.detector⟩

theorem detect_eq (h : st.Sound compiler) (path : String) :
    (st.detect path).1 = Detection.languageOf? path := (h.detector.detect path).1

theorem resumes_detect (h : st.Sound compiler) (path : String) :
    st.Resumes compiler (st.detect path).2 := ⟨.refl h.services, (h.detector.detect path).2⟩

theorem maxFileBytes_eq (h : st.Sound compiler) (settings : Settings) (path : String) :
    (st.maxFileBytes settings path).1 = settings.byteLimit path := by
  have hlanguage := detect_eq h path
  rw [maxFileBytes, Settings.byteLimit]
  split
  case h_1 language st' hdetect => rw [← hlanguage, hdetect]
  case h_2 st' hdetect => rw [← hlanguage, hdetect]

theorem resumes_maxFileBytes (h : st.Sound compiler) (settings : Settings) (path : String) :
    st.Resumes compiler (st.maxFileBytes settings path).2 := by
  have hresumes := resumes_detect h path
  rw [maxFileBytes]
  split
  case h_1 language st' hdetect => rwa [hdetect] at hresumes
  case h_2 st' hdetect => rwa [hdetect] at hresumes

theorem admitsSize_eq (h : st.Sound compiler) (settings : Settings) (path : String) (size : Nat) :
    st.admitsSize settings path size =
      (decide (size ≤ settings.byteLimit path), (st.maxFileBytes settings path).2) := by
  rw [← maxFileBytes_eq h]
  rfl

variable {env : Environment}

/-- What is extracted after work that gives back its checkouts is what was to be extracted before
it. -/
theorem Resumes.extract_eq (h : st.Resumes env.compiler st') (hs : st.Sound env.compiler)
    (language : String) (file : SourceFile) :
    (st'.services.extract env language file).1 = (st.services.extract env language file).1 :=
  Services.extract_eq env.settings.parallelGroups env.clock h.services.sound hs.services
    (h.services.pool.held language) file

/-- A text within the limit of its path is worked on as the language of its path; a longer one is
passed over. -/
theorem chunkText_eq (h : st.Sound env.compiler) (file : SourceFile) :
    (st.chunkText env file).1 =
      if file.text.utf8ByteSize ≤ env.settings.byteLimit file.path then
        (st.services.extract env (Detection.keyOf file.path) file).1
      else .skipped .fileTooLarge := by
  have hlimit := resumes_maxFileBytes h env.settings file.path
  rw [chunkText, admitsSize_eq h]
  split
  case h_1 st' hadmits =>
    simp only [Prod.mk.injEq, decide_eq_false_iff_not] at hadmits
    rw [if_neg hadmits.1]
  case h_2 st' hadmits =>
    simp only [Prod.mk.injEq, decide_eq_true_eq] at hadmits
    rw [hadmits.2] at hlimit
    rw [if_pos hadmits.1]
    dsimp only
    rw [detect_eq hlimit.sound, ← Detection.keyOf]
    exact (hlimit.trans (resumes_detect hlimit.sound file.path)).extract_eq h _ file

theorem resumes_chunkText (h : st.Sound env.compiler) (file : SourceFile) :
    st.Resumes env.compiler (st.chunkText env file).2 := by
  have hlimit := resumes_maxFileBytes h env.settings file.path
  rw [chunkText, admitsSize_eq h]
  split
  case h_1 st' hadmits =>
    rw [(Prod.mk.inj hadmits).2] at hlimit
    exact hlimit
  case h_2 st' hadmits =>
    rw [(Prod.mk.inj hadmits).2] at hlimit
    have hlanguage := resumes_detect hlimit.sound file.path
    refine hlimit.trans ⟨?_, hlanguage.detector⟩
    exact hlanguage.services.trans (Services.resumes_extract hlanguage.sound.services _ file)

theorem resumes_rejectBytes? (h : st.Sound compiler) (settings : Settings) (path : String)
    (bytes : List UInt8) : st.Resumes compiler (st.rejectBytes? settings path bytes).2 := by
  have hlimit := resumes_maxFileBytes h settings path
  rw [rejectBytes?]
  split
  · exact .refl h
  · dsimp only
    split
    · exact hlimit
    · split
      · exact hlimit
      · exact hlimit

theorem resumes_check (h : st.Sound compiler) (settings : Settings) (store : FileStore)
    (path : String) : st.Resumes compiler (st.check settings store path).2 := by
  rw [check]
  split
  · exact .refl h
  · split
    · exact .refl h
    · exact ⟨(Services.keeps_report h.services _).resumes h.services, h.detector⟩
    · exact .refl h
    · exact resumes_rejectBytes? h settings path _

theorem resumes_chunkFile (h : st.Sound env.compiler) (store : FileStore)
    (parse : SourceText → Node) (path : String) :
    st.Resumes env.compiler (st.chunkFile env store parse path).2 := by
  have hcheck := resumes_check h env.settings store path
  rw [chunkFile]
  split
  case h_1 failure st' heq =>
    rwa [heq] at hcheck
  case h_2 st' heq =>
    rw [heq] at hcheck
    split
    · exact hcheck
    · exact hcheck.trans (resumes_chunkText hcheck.sound _)

theorem resumes_processBatch (hvalid : env.settings.invalid? = none) (h : st.Sound env.compiler)
    (files : List SourceFile) : st.Resumes env.compiler (st.processBatch env files).2 := by
  obtain ⟨-, hservices, hdetector⟩ := processBatch_answers hvalid h.services h.detector
    env.settings.parallelGroups env.clock files
  exact ⟨hservices, hdetector⟩

end Session

end SourceBlocks
