import Mathlib.Data.List.Dedup
import Mathlib.Data.List.Induction
import SourceBlocks.Proofs.Language.Detection
import SourceBlocks.Proofs.Language.Names

/-! # Detectors in use

Clients ask for languages of paths, clear the memory and look things up, in any order. What a detector
answers is decided by the name of the path alone; its memory holds each path once that was asked for
since it was cleared last, blank ones apart. -/

namespace SourceBlocks

/-- One thing that a client does with a detector. -/
inductive DetectorCall where
  | detect (path : String)
  | clear
  | isSupported (language : String)
  | ofExtension (ext : String)
  | extensionsOf (language : String)
  | languages
  | size
  | info
  deriving DecidableEq, Repr

namespace DetectorCall

/-- The path whose language is asked for. -/
def path? : DetectorCall → Option String
  | detect path => some path
  | _ => none

/-- The paths, blank ones apart, whose languages were asked for after the memory was cleared last. -/
def pathsSinceClear (calls : List DetectorCall) : List String :=
  ((calls.rtakeWhile (· != clear)).filterMap path?).filter (!Text.isBlankText ·)

theorem pathsSinceClear_clear (calls : List DetectorCall) :
    pathsSinceClear (calls ++ [clear]) = [] := by
  rw [pathsSinceClear, List.rtakeWhile_concat_neg _ _ _ (by simp)]
  rfl

theorem pathsSinceClear_concat {call : DetectorCall} (h : call ≠ clear)
    (calls : List DetectorCall) :
    pathsSinceClear (calls ++ [call]) =
      pathsSinceClear calls ++ call.path?.toList.filter (!Text.isBlankText ·) := by
  rw [pathsSinceClear, List.rtakeWhile_concat_pos _ _ _ (by simpa using h), List.filterMap_append,
    List.filter_append, ← pathsSinceClear]
  cases call <;> rfl

end DetectorCall

namespace Detector

/-- What one call leaves. Only a detection and a clearing write to the memory. -/
def step (d : Detector) : DetectorCall → Detector
  | .detect path => (d.detect path).2
  | .clear => .empty
  | _ => d

def run (d : Detector) (calls : List DetectorCall) : Detector := calls.foldl step d

/-- The memory holds each of the paths, once, and no other. -/
structure Remembers (d : Detector) (paths : List String) : Prop where
  once : (d.memo.map Prod.fst).Nodup
  mem_iff : ∀ path, path ∈ d.memo.map Prod.fst ↔ path ∈ paths

variable {d : Detector} {paths : List String}

theorem remembers_empty : empty.Remembers [] := ⟨List.nodup_nil, by simp [empty]⟩

theorem keys_detect (d : Detector) (path : String) :
    (d.detect path).2.memo.map Prod.fst =
      if Text.isBlankText path = true ∨ path ∈ d.memo.map Prod.fst then d.memo.map Prod.fst
      else path :: d.memo.map Prod.fst := by
  rw [Detector.detect]
  split
  case isTrue hblank => rw [if_pos (.inl hblank)]
  case isFalse hblank =>
    split
    case h_1 answer hlookup =>
      obtain ⟨before, after, hmemo, -⟩ := List.lookup_eq_some_iff.1 hlookup
      rw [if_pos (.inr (by simp [hmemo]))]
    case h_2 hlookup =>
      rw [List.lookup_eq_none_iff] at hlookup
      have hnew : path ∉ d.memo.map Prod.fst := by
        intro hmem
        obtain ⟨entry, hentry, rfl⟩ := List.mem_map.1 hmem
        simpa using hlookup entry hentry
      rw [if_neg (not_or.2 ⟨hblank, hnew⟩)]
      rfl

theorem Remembers.detect (h : d.Remembers paths) (path : String) :
    (d.detect path).2.Remembers (paths ++ [path].filter (!Text.isBlankText ·)) := by
  have hkeys := keys_detect d path
  by_cases hblank : Text.isBlankText path = true
  · rw [if_pos (.inl hblank)] at hkeys
    have hpaths : paths ++ [path].filter (!Text.isBlankText ·) = paths := by simp [hblank]
    rw [hpaths]
    exact ⟨hkeys ▸ h.once, hkeys ▸ h.mem_iff⟩
  have hpaths : paths ++ [path].filter (!Text.isBlankText ·) = paths ++ [path] := by simp [hblank]
  rw [hpaths]
  by_cases hmem : path ∈ d.memo.map Prod.fst
  · rw [if_pos (.inr hmem)] at hkeys
    refine ⟨hkeys ▸ h.once, fun other => ?_⟩
    rw [hkeys, h.mem_iff, List.mem_append, List.mem_singleton]
    refine ⟨.inl, fun hother => hother.elim id ?_⟩
    rintro rfl
    exact (h.mem_iff other).1 hmem
  · rw [if_neg (not_or.2 ⟨hblank, hmem⟩)] at hkeys
    refine ⟨hkeys ▸ List.nodup_cons.2 ⟨hmem, h.once⟩, fun other => ?_⟩
    rw [hkeys, List.mem_cons, h.mem_iff, List.mem_append, List.mem_singleton, or_comm]

theorem Remembers.step {calls : List DetectorCall}
    (h : d.Remembers (DetectorCall.pathsSinceClear calls)) (call : DetectorCall) :
    (d.step call).Remembers (DetectorCall.pathsSinceClear (calls ++ [call])) := by
  by_cases hclear : call = .clear
  · subst hclear
    rw [DetectorCall.pathsSinceClear_clear]
    exact remembers_empty
  rw [DetectorCall.pathsSinceClear_concat hclear]
  cases call with
  | detect path => exact h.detect path
  | clear => exact absurd rfl hclear
  | _ => simpa [DetectorCall.path?, Detector.step] using h

theorem Sound.step (h : d.Sound) (call : DetectorCall) : (d.step call).Sound := by
  cases call with
  | detect path => exact (h.detect path).2
  | clear => exact sound_empty
  | _ => exact h

/-- After any calls the memory is sound and holds what was asked for since it was cleared. -/
theorem run_empty (calls : List DetectorCall) :
    (empty.run calls).Sound ∧
      (empty.run calls).Remembers (DetectorCall.pathsSinceClear calls) := by
  induction calls using List.reverseRecOn with
  | nil => exact ⟨sound_empty, remembers_empty⟩
  | append_singleton calls call ih =>
    rw [run, List.foldl_append, List.foldl_cons, List.foldl_nil, ← run]
    exact ⟨ih.1.step call, ih.2.step call⟩

theorem Remembers.size_eq (h : d.Remembers paths) : d.size = paths.dedup.length := by
  have hperm : (d.memo.map Prod.fst).Perm paths.dedup :=
    (List.perm_ext_iff_of_nodup h.once (List.nodup_dedup paths)).2 fun path => by
      rw [h.mem_iff, List.mem_dedup]
  rw [size, ← hperm.length_eq, List.length_map]

/-- After any calls a detector answers as a new one does, by the name of the path, and holds as many
answers as it was asked for different paths since its memory was cleared, blank ones apart. -/
theorem run_answers_byName (calls : List DetectorCall) :
    let d := empty.run calls
    (∀ path, (d.detect path).1 = (empty.detect path).1) ∧
      Detection.ByName (fun path => (d.detect path).1) ∧
      d.size = (DetectorCall.pathsSinceClear calls).dedup.length := by
  intro d
  obtain ⟨hsound, hremembers⟩ := run_empty calls
  have hanswer : (fun path => (d.detect path).1) = Detection.languageOf? :=
    funext fun path => (hsound.detect path).1
  refine ⟨fun path => ?_, ?_, hremembers.size_eq⟩
  · exact (hsound.detect path).1.trans (sound_empty.detect path).1.symm
  · rw [hanswer]
    exact Detection.byName_languageOf?

/-- A detection after a clearing is remembered again, and a blank path never is. -/
example :
    let d := empty.run [.detect "a.py", .clear, .detect "src/Main.RS", .detect " ", .detect "b.x",
      .detect "src/Main.RS", .info]
    (d.size, (d.detect "C:\\repo\\main.rs").1) = (2, some "rust") := by
  decide +kernel

end Detector

end SourceBlocks
