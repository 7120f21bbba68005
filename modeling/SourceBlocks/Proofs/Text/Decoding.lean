import Mathlib.Algebra.Ring.Nat
import SourceBlocks.Text.Slice
import SourceBlocks.Text.Utf8

/-! # What bytes are read as

The decoder cuts its bytes into parts. A part that is read as a character is the encoding of that
character; any other part has one to three bytes and is read as U+FFFD, which takes three. A text
thus never has fewer bytes than it was read from. The encoding of a text is read as that text. -/

namespace SourceBlocks.Text

/-- Bytes that are read together, as a character or as an ill-formed stretch. -/
structure Part where
  bytes : List UInt8
  read : Option Char

namespace Part

/-- The bytes encode the character, or are one to three that stand for none. -/
def Faithful (p : Part) : Prop :=
  match p.read with
  | some c => p.bytes = String.utf8EncodeChar c
  | none => 1 ≤ p.bytes.length ∧ p.bytes.length ≤ 3

/-- How many bytes the text has for the part beyond those of the part itself. -/
def growth (p : Part) : Nat := if p.read.isSome then 0 else 3 - p.bytes.length

end Part

/-- The bytes are the parts one after the other, and are read as these. -/
structure Parts (bytes : List UInt8) (parts : List Part) : Prop where
  bytes_eq : parts.flatMap Part.bytes = bytes
  decode_eq : decode bytes = parts.map Part.read
  faithful : ∀ p ∈ parts, p.Faithful

theorem val_ofNat {n : Nat} (h : n.isValidChar) : (Char.ofNat n).val.toNat = n := by
  rw [Char.ofNat, dif_pos h]
  rfl

theorem uint8_ofNat_eq {n : Nat} (byte : UInt8) (h : n = byte.toNat) : UInt8.ofNat n = byte := by
  rw [h, UInt8.ofNat_toNat]

theorem toNat_uint8_ofNat {n : Nat} (h : n < 0x100) : (UInt8.ofNat n).toNat = n :=
  UInt8.toNat_ofNat_of_lt' h

namespace Decoding

/-- The bytes on which a byte that continues a character may lie. -/
def continuing : Nat × Nat := (0x80, 0xBF)

theorem start_one (out : List (Option Char)) {b : Nat} (h : b < 0x80) :
    start out b = ⟨some (Char.ofNat b) :: out, none⟩ := if_pos h

theorem start_two (out : List (Option Char)) {b : Nat} (h : 0xC2 ≤ b) (h' : b ≤ 0xDF) :
    start out b = ⟨out, some ⟨b % 0x20, [continuing]⟩⟩ := by
  rw [start, if_neg (by omega), if_pos (by simp [h, h'])]
  rfl

/-- What may follow the first of three bytes, so that no short encoding and no surrogate is read. -/
def secondOfThree (b : Nat) : Nat × Nat :=
  (if b = 0xE0 then 0xA0 else 0x80, if b = 0xED then 0x9F else 0xBF)

/-- What may follow the first of four bytes, so that no short encoding and nothing beyond the last
character is read. -/
def secondOfFour (b : Nat) : Nat × Nat :=
  (if b = 0xF0 then 0x90 else 0x80, if b = 0xF4 then 0x8F else 0xBF)

theorem secondOfThree_iff {b second : Nat} :
    ((secondOfThree b).1 ≤ second ∧ second ≤ (secondOfThree b).2) ↔
      (0x80 ≤ second ∧ second ≤ 0xBF) ∧ (b = 0xE0 → 0xA0 ≤ second) ∧
        (b = 0xED → second ≤ 0x9F) := by
  simp only [secondOfThree]
  split <;> split <;> omega

theorem secondOfFour_iff {b second : Nat} :
    ((secondOfFour b).1 ≤ second ∧ second ≤ (secondOfFour b).2) ↔
      (0x80 ≤ second ∧ second ≤ 0xBF) ∧ (b = 0xF0 → 0x90 ≤ second) ∧
        (b = 0xF4 → second ≤ 0x8F) := by
  simp only [secondOfFour]
  split <;> split <;> omega

theorem start_three (out : List (Option Char)) {b : Nat} (h : 0xE0 ≤ b) (h' : b ≤ 0xEF) :
    start out b = ⟨out, some ⟨b % 0x10, [secondOfThree b, continuing]⟩⟩ := by
  by_cases hfirst : b = 0xE0
  · subst hfirst; rfl
  by_cases hsurrogate : b = 0xED
  · subst hsurrogate; rfl
  have hrange : secondOfThree b = continuing := by simp [secondOfThree, hfirst, hsurrogate, continuing]
  simp only [start, Bool.and_eq_true, decide_eq_true_eq, beq_iff_eq]
  rw [hrange, if_neg (by omega), if_neg (by omega), if_neg hfirst, if_neg hsurrogate,
    if_pos (by omega)]
  rfl

theorem start_four (out : List (Option Char)) {b : Nat} (h : 0xF0 ≤ b) (h' : b ≤ 0xF4) :
    start out b = ⟨out, some ⟨b % 0x08, [secondOfFour b, continuing, continuing]⟩⟩ := by
  by_cases hfirst : b = 0xF0
  · subst hfirst; rfl
  by_cases hlast : b = 0xF4
  · subst hlast; rfl
  have hrange : secondOfFour b = continuing := by simp [secondOfFour, hfirst, hlast, continuing]
  simp only [start, Bool.and_eq_true, decide_eq_true_eq, beq_iff_eq]
  rw [hrange, if_neg (by omega), if_neg (by omega), if_neg (by omega), if_neg (by omega),
    if_neg (by omega), if_neg hfirst, if_pos (by omega)]
  rfl

theorem start_none (out : List (Option Char)) {b : Nat} (h : 0x80 ≤ b)
    (h' : b < 0xC2 ∨ 0xF4 < b) : start out b = ⟨none :: out, none⟩ := by
  simp only [start, beq_iff_eq, Bool.and_eq_true, decide_eq_true_eq]
  rw [if_neg (by omega), if_neg (by omega), if_neg (by omega), if_neg (by omega),
    if_neg (by omega), if_neg (by omega), if_neg (by omega), if_neg (by omega)]

/-! ## Parts -/

/-- However the bytes go on within the ranges, they end as the encoding of the character that is read
from them. -/
def Begins : List UInt8 → Nat → List (Nat × Nat) → Prop
  | begun, code, [] => begun = String.utf8EncodeChar (Char.ofNat code)
  | begun, code, (lo, hi) :: more =>
    ∀ byte : UInt8, lo ≤ byte.toNat → byte.toNat ≤ hi →
      Begins (begun ++ [byte]) (code * 0x40 + byte.toNat % 0x40) more

theorem encode_one {byte : UInt8} (h : byte.toNat < 0x80) :
    [byte] = String.utf8EncodeChar (Char.ofNat byte.toNat) := by
  have hvalid : byte.toNat.isValidChar := by simp only [Nat.isValidChar]; omega
  simp only [String.utf8EncodeChar, val_ofNat hvalid]
  rw [if_pos (by omega), UInt8.ofNat_toNat]

theorem begins_two {first : UInt8} (h : 0xC2 ≤ first.toNat) (h' : first.toNat ≤ 0xDF) :
    Begins [first] (first.toNat % 0x20) [continuing] := by
  intro second hlo hhi
  dsimp only [Begins]
  generalize hn : first.toNat % 0x20 * 0x40 + second.toNat % 0x40 = n
  have hvalid : n.isValidChar := by simp only [Nat.isValidChar]; omega
  simp only [String.utf8EncodeChar, val_ofNat hvalid]
  rw [if_neg (by omega), if_pos (by omega), uint8_ofNat_eq first (by omega),
    uint8_ofNat_eq second (by omega)]
  rfl

theorem begins_three {first : UInt8} (h : 0xE0 ≤ first.toNat) (h' : first.toNat ≤ 0xEF) :
    Begins [first] (first.toNat % 0x10) [secondOfThree first.toNat, continuing] := by
  intro second hlo hhi third hlo' hhi'
  dsimp only [Begins]
  generalize hn : (first.toNat % 0x10 * 0x40 + second.toNat % 0x40) * 0x40 + third.toNat % 0x40 = n
  obtain ⟨hsecond, hshort, hsurrogate⟩ := secondOfThree_iff.1 ⟨hlo, hhi⟩
  have hvalid : n.isValidChar := by simp only [Nat.isValidChar]; omega
  simp only [String.utf8EncodeChar, val_ofNat hvalid]
  rw [if_neg (by omega), if_neg (by omega), if_pos (by omega),
    uint8_ofNat_eq first (by omega), uint8_ofNat_eq second (by omega),
    uint8_ofNat_eq third (by omega)]
  rfl

theorem begins_four {first : UInt8} (h : 0xF0 ≤ first.toNat) (h' : first.toNat ≤ 0xF4) :
    Begins [first] (first.toNat % 0x08)
      [secondOfFour first.toNat, continuing, continuing] := by
  intro second hlo hhi third hlo' hhi' fourth hlo'' hhi''
  dsimp only [Begins]
  generalize hn : ((first.toNat % 0x08 * 0x40 + second.toNat % 0x40) * 0x40
    + third.toNat % 0x40) * 0x40 + fourth.toNat % 0x40 = n
  obtain ⟨hsecond, hshort, hlast⟩ := secondOfFour_iff.1 ⟨hlo, hhi⟩
  have hvalid : n.isValidChar := by simp only [Nat.isValidChar]; omega
  simp only [String.utf8EncodeChar, val_ofNat hvalid]
  rw [if_neg (by omega), if_neg (by omega), if_neg (by omega),
    uint8_ofNat_eq first (by omega), uint8_ofNat_eq second (by omega),
    uint8_ofNat_eq third (by omega), uint8_ofNat_eq fourth (by omega)]
  rfl

end Decoding

/-- The bytes have begun a character: more are due, and whatever follows within the ranges completes
it. -/
structure Unfinished.Follows (u : Unfinished) (begun : List UInt8) : Prop where
  due : u.ranges ≠ []
  begun_ne_nil : begun ≠ []
  length_le : begun.length + u.ranges.length ≤ 4
  begins : Decoding.Begins begun u.code u.ranges

/-- Bytes that stop within a character are an ill-formed part. -/
theorem Unfinished.Follows.faithful {u : Unfinished} {begun : List UInt8} (h : u.Follows begun) :
    Part.Faithful ⟨begun, none⟩ := by
  have hdue := List.length_pos_iff.2 h.due
  have hbegun := List.length_pos_iff.2 h.begun_ne_nil
  have hle := h.length_le
  rw [Part.Faithful]
  dsimp only
  omega

namespace Decoding

/-- The parts are read, and after them bytes that have begun a character. -/
structure Reads (d : Decoding) (parts : List Part) (begun : List UInt8) : Prop where
  output : d.output = (parts.map Part.read).reverse
  faithful : ∀ p ∈ parts, p.Faithful
  pending : match d.pending with
    | none => begun = []
    | some u => u.Follows begun

/-- Between characters a byte is a part of its own or begins a character. -/
theorem start_cases (out : List (Option Char)) (byte : UInt8) :
    (∃ p : Part, p.bytes = [byte] ∧ p.Faithful ∧ start out byte.toNat = ⟨p.read :: out, none⟩) ∨
      ∃ u : Unfinished, u.Follows [byte] ∧ start out byte.toNat = ⟨out, some u⟩ := by
  by_cases hone : byte.toNat < 0x80
  · exact .inl ⟨⟨[byte], some _⟩, rfl, encode_one hone, start_one out hone⟩
  by_cases htwo : 0xC2 ≤ byte.toNat ∧ byte.toNat ≤ 0xDF
  · exact .inr ⟨_, ⟨by simp, by simp, by simp, begins_two htwo.1 htwo.2⟩,
      start_two out htwo.1 htwo.2⟩
  by_cases hthree : 0xE0 ≤ byte.toNat ∧ byte.toNat ≤ 0xEF
  · exact .inr ⟨_, ⟨by simp, by simp, by simp, begins_three hthree.1 hthree.2⟩,
      start_three out hthree.1 hthree.2⟩
  by_cases hfour : 0xF0 ≤ byte.toNat ∧ byte.toNat ≤ 0xF4
  · exact .inr ⟨_, ⟨by simp, by simp, by simp, begins_four hfour.1 hfour.2⟩,
      start_four out hfour.1 hfour.2⟩
  · exact .inl ⟨⟨[byte], none⟩, rfl, by simp [Part.Faithful], start_none out (by omega) (by omega)⟩

variable {d : Decoding} {parts : List Part} {begun : List UInt8}

theorem Reads.concat (h : d.Reads parts begun) {p : Part} (hp : p.Faithful) :
    Reads ⟨p.read :: d.output, none⟩ (parts ++ [p]) [] := by
  refine ⟨by simp [h.output], fun q hq => ?_, rfl⟩
  rcases List.mem_append.1 hq with hold | hnew
  · exact h.faithful q hold
  · rwa [List.mem_singleton.1 hnew]

theorem Reads.start (h : d.Reads parts begun) (byte : UInt8) :
    ∃ parts' begun', parts'.flatMap Part.bytes ++ begun' = parts.flatMap Part.bytes ++ [byte] ∧
      (Decoding.start d.output byte.toNat).Reads parts' begun' := by
  rcases start_cases d.output byte with ⟨p, hbytes, hp, hstart⟩ | ⟨u, hu, hstart⟩
  · rw [hstart]
    exact ⟨parts ++ [p], [], by simp [hbytes], h.concat hp⟩
  · rw [hstart]
    exact ⟨parts, [byte], rfl, h.output, h.faithful, hu⟩

/-- A byte starts anew, goes on with a part or completes it, or shows that the part before it is
ill-formed. -/
theorem Reads.step (h : d.Reads parts begun) (byte : UInt8) :
    ∃ parts' begun', parts'.flatMap Part.bytes ++ begun' =
        parts.flatMap Part.bytes ++ begun ++ [byte] ∧
      (d.step byte).Reads parts' begun' := by
  have hpending := h.pending
  rw [Decoding.step]
  split
  case h_1 hnone =>
    rw [hnone] at hpending
    obtain rfl : begun = [] := hpending
    simpa using h.start byte
  case h_2 code hnone =>
    rw [hnone] at hpending
    exact absurd rfl hpending.due
  case h_3 code lo hi more hsome =>
    rw [hsome] at hpending
    have hle := hpending.length_le
    split
    case isTrue hin =>
      simp only [Bool.and_eq_true, decide_eq_true_eq] at hin
      have hnext := hpending.begins byte hin.1 hin.2
      cases more with
      | nil =>
        have hpart : Part.Faithful ⟨begun ++ [byte], some (Char.ofNat _)⟩ := hnext
        exact ⟨_, [], by simp, h.concat hpart⟩
      | cons range more =>
        refine ⟨parts, begun ++ [byte], by simp, h.output, h.faithful, ?_⟩
        exact ⟨by simp, by simp, by simp at hle ⊢; omega, hnext⟩
    case isFalse =>
      obtain ⟨parts', begun', hbytes, hreads⟩ := (h.concat hpending.faithful).start byte
      exact ⟨parts', begun', by simpa using hbytes, hreads⟩

theorem reads_foldl (bytes : List UInt8) :
    ∀ {d : Decoding} {parts : List Part} {begun : List UInt8}, d.Reads parts begun →
      ∃ parts' begun', parts'.flatMap Part.bytes ++ begun' =
          parts.flatMap Part.bytes ++ begun ++ bytes ∧
        (bytes.foldl Decoding.step d).Reads parts' begun' := by
  induction bytes with
  | nil => exact fun {d parts begun} h => ⟨parts, begun, by simp, h⟩
  | cons byte rest ih =>
    intro d parts begun h
    obtain ⟨parts', begun', hbytes, hreads⟩ := h.step byte
    obtain ⟨parts'', begun'', hbytes', hreads'⟩ := ih hreads
    exact ⟨parts'', begun'', by rw [hbytes', hbytes]; simp, hreads'⟩

end Decoding

/-- All bytes fall into parts. -/
theorem exists_parts (bytes : List UInt8) : ∃ parts, Parts bytes parts := by
  have hstart : Decoding.Reads ⟨[], none⟩ [] [] := ⟨rfl, by simp, rfl⟩
  obtain ⟨parts, begun, hbytes, hreads⟩ := Decoding.reads_foldl bytes hstart
  have hpending := hreads.pending
  rw [List.flatMap_nil, List.nil_append, List.nil_append] at hbytes
  cases hend : (bytes.foldl Decoding.step ⟨[], none⟩).pending with
  | none =>
    rw [hend] at hpending
    obtain rfl : begun = [] := hpending
    refine ⟨parts, by simpa using hbytes, ?_, hreads.faithful⟩
    simp [decode, hend, hreads.output]
  | some u =>
    -- the bytes end within a character
    rw [hend] at hpending
    have hlast := hreads.concat hpending.faithful
    refine ⟨parts ++ [⟨begun, none⟩], by simpa using hbytes, ?_, hlast.faithful⟩
    simp [decode, hend, hreads.output]

/-! ## Encodings -/

namespace Decoding

theorem step_between (out : List (Option Char)) (byte : UInt8) :
    step ⟨out, none⟩ byte = start out byte.toNat := rfl

theorem step_within (out : List (Option Char)) (code : Nat) {range next : Nat × Nat}
    {more : List (Nat × Nat)} {byte : UInt8} (h : range.1 ≤ byte.toNat ∧ byte.toNat ≤ range.2) :
    step ⟨out, some ⟨code, range :: next :: more⟩⟩ byte =
      ⟨out, some ⟨code * 0x40 + byte.toNat % 0x40, next :: more⟩⟩ := by
  simp [step, h.1, h.2]

theorem step_last (out : List (Option Char)) (code : Nat) {range : Nat × Nat} {byte : UInt8}
    (h : range.1 ≤ byte.toNat ∧ byte.toNat ≤ range.2) :
    step ⟨out, some ⟨code, [range]⟩⟩ byte =
      ⟨some (Char.ofNat (code * 0x40 + byte.toNat % 0x40)) :: out, none⟩ := by
  simp [step, h.1, h.2]

theorem within_continuing {byte : UInt8} (h : 0x80 ≤ byte.toNat ∧ byte.toNat ≤ 0xBF) :
    continuing.1 ≤ byte.toNat ∧ byte.toNat ≤ continuing.2 := h

/-- The encoding of a character is read as that character. -/
theorem foldl_utf8EncodeChar (out : List (Option Char)) (c : Char) :
    (String.utf8EncodeChar c).foldl step ⟨out, none⟩ = ⟨some c :: out, none⟩ := by
  have hvalid : c.val.toNat.isValidChar := c.valid
  have hchar : ∀ {n : Nat}, n = c.val.toNat → Char.ofNat n = c := by
    rintro n rfl
    exact Char.ofNat_toNat c
  rw [String.utf8EncodeChar]
  generalize c.val.toNat = v at hvalid hchar
  simp only [Nat.isValidChar] at hvalid
  by_cases hone : v ≤ 0x7F
  · have hbyte := toNat_uint8_ofNat (n := v) (by omega)
    rw [if_pos hone, List.foldl_cons, List.foldl_nil, step_between, start_one out (by omega),
      hchar hbyte]
  have hlast := toNat_uint8_ofNat (n := v % 64 + 128) (by omega)
  by_cases htwo : v ≤ 0x7FF
  · have hfirst := toNat_uint8_ofNat (n := v / 64 % 32 + 192) (by omega)
    rw [if_neg hone, if_pos htwo, List.foldl_cons, List.foldl_cons, List.foldl_nil, step_between,
      start_two out (by omega) (by omega), step_last out _ (within_continuing (by omega)),
      hchar (by omega)]
  have hthird := toNat_uint8_ofNat (n := v / 64 % 64 + 128) (by omega)
  by_cases hthree : v ≤ 0xFFFF
  · have hfirst := toNat_uint8_ofNat (n := v / 4096 % 16 + 224) (by omega)
    rw [if_neg hone, if_neg htwo, if_pos hthree, List.foldl_cons, List.foldl_cons, List.foldl_cons,
      List.foldl_nil, step_between, start_three out (by omega) (by omega),
      step_within out _ (secondOfThree_iff.2 (by omega)),
      step_last out _ (within_continuing (by omega)), hchar (by omega)]
  · have hfirst := toNat_uint8_ofNat (n := v / 262144 % 8 + 240) (by omega)
    have hsecond := toNat_uint8_ofNat (n := v / 4096 % 64 + 128) (by omega)
    rw [if_neg hone, if_neg htwo, if_neg hthree, List.foldl_cons, List.foldl_cons, List.foldl_cons,
      List.foldl_cons, List.foldl_nil, step_between, start_four out (by omega) (by omega),
      step_within out _ (secondOfFour_iff.2 (by omega)),
      step_within out _ (within_continuing (by omega)),
      step_last out _ (within_continuing (by omega)), hchar (by omega)]

theorem foldl_encoded (cs : List Char) :
    ∀ out : List (Option Char), (cs.flatMap String.utf8EncodeChar).foldl step ⟨out, none⟩ =
      ⟨(cs.map some).reverse ++ out, none⟩ := by
  induction cs with
  | nil => intro out; rfl
  | cons c cs ih =>
    intro out
    rw [List.flatMap_cons, List.foldl_append, foldl_utf8EncodeChar, ih]
    simp

end Decoding

/-- What encodes a text is read as the text, without an ill-formed part. -/
theorem decode_encoded (cs : List Char) :
    decode (cs.flatMap String.utf8EncodeChar) = cs.map some := by
  rw [decode, Decoding.foldl_encoded]
  simp

/-! ## Sizes -/

theorem utf8ByteSize_ofList (cs : List Char) : (String.ofList cs).utf8ByteSize = byteLength cs := by
  induction cs with
  | nil => rfl
  | cons c cs ih =>
    rw [byteLength_cons, ← ih, String.ofList_cons]
    simp [String.utf8ByteSize_append]

/-- A part has its own bytes in the text and those by which it grows. -/
theorem Part.Faithful.utf8Size {p : Part} (h : p.Faithful) :
    (p.read.getD (Char.ofNat 0xFFFD)).utf8Size = p.bytes.length + p.growth := by
  obtain ⟨bytes, read⟩ := p
  cases read with
  | none =>
    obtain ⟨hpos, hle⟩ := h
    have hsize : (Char.ofNat 0xFFFD).utf8Size = 3 := by decide
    rw [Option.getD_none, hsize, growth]
    simp only [Option.isSome_none, Bool.false_eq_true, if_false] at hpos hle ⊢
    omega
  | some c =>
    obtain rfl : bytes = String.utf8EncodeChar c := h
    rw [growth]
    simp

theorem byteLength_reads {parts : List Part} (h : ∀ p ∈ parts, p.Faithful) :
    byteLength (parts.map fun p => p.read.getD (Char.ofNat 0xFFFD)) =
      (parts.flatMap Part.bytes).length + (parts.map Part.growth).sum := by
  induction parts with
  | nil => rfl
  | cons p rest ih =>
    have hfirst := (h p List.mem_cons_self).utf8Size
    have hrest := ih fun q hq => h q (List.mem_cons_of_mem p hq)
    rw [List.map_cons, byteLength_cons, hfirst, hrest, List.flatMap_cons, List.length_append,
      List.map_cons, List.sum_cons]
    omega

/-- A text has the bytes it was read from and those by which ill-formed parts grow. -/
theorem Parts.utf8ByteSize_decodeLossy {bytes : List UInt8} {parts : List Part}
    (h : Parts bytes parts) :
    (decodeLossy bytes).utf8ByteSize = bytes.length + (parts.map Part.growth).sum := by
  rw [decodeLossy, utf8ByteSize_ofList, h.decode_eq, List.map_map, ← h.bytes_eq]
  exact byteLength_reads h.faithful

theorem length_encoded (cs : List Char) :
    (cs.flatMap String.utf8EncodeChar).length = byteLength cs := by
  induction cs with
  | nil => rfl
  | cons c cs ih =>
    rw [List.flatMap_cons, List.length_append, String.length_utf8EncodeChar, ih, byteLength_cons]

theorem decodeLossy_encoded (cs : List Char) :
    decodeLossy (cs.flatMap String.utf8EncodeChar) = String.ofList cs := by
  rw [decodeLossy, decode_encoded, List.map_map]
  simp [Function.comp_def]

end SourceBlocks.Text
