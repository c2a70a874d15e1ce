import Mathlib.Data.String.Basic

/-!
# The bytes of a text

A text in UTF-8 is a row of bytes.  The code of an ASCII character is one byte that no other code
contains, so such a character can be looked for among the bytes; texts are in the order of their
bytes; and a text can be cut at the places where the bytes of a character begin.
-/

namespace Stencil.Text

variable {cs before inside behind : List Char} {text : String}

/-- The bytes of a text in UTF-8. -/
def utf8 (s : String) : List UInt8 := s.toUTF8.data.toList

theorem utf8_eq_flatMap (s : String) : utf8 s = s.toList.flatMap String.utf8EncodeChar := by
  rw [utf8, String.toUTF8, ← String.utf8Encode_toList, List.utf8Encode,
    List.toList_data_toByteArray]

/-! ## The code of a character -/

theorem toNat_val_lt (c : Char) : c.val.toNat < 0x110000 := by
  rcases c.valid with low | ⟨-, high⟩
  · exact Nat.lt_trans low (by decide)
  · exact high

theorem utf8EncodeChar_of_ascii {c : Char} (h : c.toNat < 128) :
    String.utf8EncodeChar c = [c.toUInt8] := by
  have h : c.val.toNat ≤ 127 := Nat.le_of_lt_succ h
  simp only [String.utf8EncodeChar, h, if_true]
  rfl

theorem toNat_toUInt8_of_ascii {c : Char} (h : c.toNat < 128) : c.toUInt8.toNat = c.toNat := by
  have h : c.val.toNat < 128 := h
  rw [Char.toUInt8, UInt32.toNat_toUInt8]
  exact Nat.mod_eq_of_lt (Nat.lt_trans h (by decide))

/-- No byte of a character outside of ASCII is the byte of one inside. -/
theorem le_toNat_of_mem_utf8EncodeChar {c : Char} (h : 128 ≤ c.toNat) {b : UInt8}
    (hb : b ∈ String.utf8EncodeChar c) : 128 ≤ b.toNat := by
  have h : ¬ c.val.toNat ≤ 127 := Nat.not_le.2 h
  have bound := toNat_val_lt c
  unfold String.utf8EncodeChar at hb
  generalize c.val.toNat = v at h hb bound
  dsimp only at hb
  split_ifs at hb
  all_goals
    simp only [List.mem_cons, List.not_mem_nil, or_false] at hb
    rcases hb with rfl | rfl | rfl | rfl
  all_goals
    simp only [UInt8.toNat_ofNat']
    omega

/-- The byte of an ASCII character is in the code of that character only. -/
theorem eq_of_mem_utf8EncodeChar {c d : Char} (ascii : d.toNat < 128)
    (h : d.toUInt8 ∈ String.utf8EncodeChar c) : c = d := by
  have same := toNat_toUInt8_of_ascii ascii
  have low : c.toNat < 128 := by
    by_contra high
    have := le_toNat_of_mem_utf8EncodeChar (Nat.not_lt.1 high) h
    omega
  rw [utf8EncodeChar_of_ascii low, List.mem_singleton] at h
  rw [← Char.toNat_inj, ← same, h, toNat_toUInt8_of_ascii low]

/-! ## Order -/

/-- Numbers compare as their digits to the base 64 do, of which the first need not be small. -/
theorem sextets_lt {v w : Nat} (h : v < w) :
    v / 262144 < w / 262144 ∨ v / 262144 = w / 262144 ∧
      (v / 4096 % 64 < w / 4096 % 64 ∨ v / 4096 % 64 = w / 4096 % 64 ∧
        (v / 64 % 64 < w / 64 % 64 ∨ v / 64 % 64 = w / 64 % 64 ∧ v % 64 < w % 64)) := by
  have digit {v w : Nat} (h : v < w) : v / 64 < w / 64 ∨ v / 64 = w / 64 ∧ v % 64 < w % 64 := by
    omega
  have second (n : Nat) : n / 4096 = n / 64 / 64 := by rw [Nat.div_div_eq_div_mul]
  have third (n : Nat) : n / 262144 = n / 64 / 64 / 64 := by
    rw [Nat.div_div_eq_div_mul, Nat.div_div_eq_div_mul]
  rw [third v, third w, second v, second w]
  rcases digit h with h | ⟨eq, h⟩
  · rcases digit h with h | ⟨eq, h⟩
    · rcases digit h with h | ⟨eq, h⟩
      · exact .inl h
      · exact .inr ⟨eq, .inl h⟩
    · exact .inr ⟨by rw [eq], .inr ⟨by rw [eq], .inl h⟩⟩
  · exact .inr ⟨by rw [eq], .inr ⟨by rw [eq], .inr ⟨by rw [eq], h⟩⟩⟩

/-- A longer code begins with a greater byte, and codes of one length compare byte by byte. -/
theorem utf8EncodeChar_lt {c d : Char} (h : c < d) (xs ys : List UInt8) :
    String.utf8EncodeChar c ++ xs < String.utf8EncodeChar d ++ ys := by
  have lt : c.val.toNat < d.val.toNat := h
  have bound := toNat_val_lt d
  have sextets := sextets_lt lt
  have lead {n : Nat} (h : n < 0x110000) : (n / 262144 % 8 + 240) % 2 ^ 8 = n / 262144 + 240 := by
    omega
  have next (n : Nat) : (n % 64 + 128) % 2 ^ 8 = n % 64 + 128 := by omega
  unfold String.utf8EncodeChar
  generalize c.val.toNat = v at lt sextets
  generalize d.val.toNat = w at lt bound sextets
  dsimp only
  -- Two characters of which the second has the shorter code are not in this order.
  split_ifs <;> first
    | omega
    | simp only [List.cons_append, List.nil_append, List.cons_lt_cons_iff, UInt8.lt_iff_toNat_lt,
        ← UInt8.toNat_inj, UInt8.toNat_ofNat', lead bound, lead (Nat.lt_trans lt bound), next]
      omega

theorem flatMap_utf8EncodeChar_lt {cs ds : List Char} (h : cs < ds) :
    cs.flatMap String.utf8EncodeChar < ds.flatMap String.utf8EncodeChar := by
  induction h with
  | @nil d ds =>
    obtain ⟨b, bs, eq⟩ := List.exists_cons_of_ne_nil (@String.utf8EncodeChar_ne_nil d)
    rw [List.flatMap_nil, List.flatMap_cons, eq, List.cons_append]
    exact List.nil_lt_cons b _
  | rel first =>
    rw [List.flatMap_cons, List.flatMap_cons]
    exact utf8EncodeChar_lt first _ _
  | cons rest ih =>
    rw [List.flatMap_cons, List.flatMap_cons]
    exact List.append_left_lt ih

/-- The order of texts is that of their bytes. -/
theorem utf8_lt_iff {s t : String} : utf8 s < utf8 t ↔ s < t := by
  have mono {s t : String} (h : s < t) : utf8 s < utf8 t := by
    rw [utf8_eq_flatMap, utf8_eq_flatMap]
    exact flatMap_utf8EncodeChar_lt (String.lt_iff_toList_lt.1 h)
  refine ⟨fun h => ?_, mono⟩
  rcases lt_trichotomy s t with before | rfl | behind
  · exact before
  · exact absurd h (List.lt_irrefl _)
  · exact absurd h (List.lt_asymm (mono behind))

/-! ## Places -/

/-- The number of bytes of a row of characters. -/
def width (cs : List Char) : Nat := (cs.flatMap String.utf8EncodeChar).length

/-- The place in bytes at which a character of a text begins, given its number. -/
def offset (text : String) (number : Nat) : Nat := width (text.toList.take number)

theorem width_append (cs ds : List Char) : width (cs ++ ds) = width cs + width ds := by
  simp [width]

theorem utf8_ofList (cs : List Char) :
    utf8 (String.ofList cs) = cs.flatMap String.utf8EncodeChar := by
  rw [utf8_eq_flatMap, String.toList_ofList]

theorem length_utf8 (s : String) : (utf8 s).length = width s.toList := by
  rw [utf8_eq_flatMap, width]

theorem utf8ByteSize_ofList (cs : List Char) : (String.ofList cs).utf8ByteSize = width cs := by
  rw [← String.size_toByteArray, String.toByteArray_ofList, List.utf8Encode, width]
  simp

/-- A place of a text, in bytes, where a character begins or the text ends. -/
def IsBoundary (text : String) (place : Nat) : Prop := (⟨place⟩ : String.Pos.Raw).IsValid text

instance (text : String) (place : Nat) : Decidable (IsBoundary text place) :=
  inferInstanceAs (Decidable (String.Pos.Raw.IsValid _ _))

theorem isBoundary_iff {place : Nat} :
    IsBoundary text place ↔
      ∃ before behind, text.toList = before ++ behind ∧ width before = place := by
  rw [IsBoundary, String.Pos.Raw.isValid_iff_exists_append]
  constructor
  · rintro ⟨before, behind, rfl, place⟩
    refine ⟨before.toList, behind.toList, String.toList_append, ?_⟩
    rw [← utf8ByteSize_ofList, String.ofList_toList]
    exact (congrArg String.Pos.Raw.byteIdx place).symm
  · rintro ⟨before, behind, split, rfl⟩
    refine ⟨String.ofList before, String.ofList behind, ?_, ?_⟩
    · rw [← String.ofList_append, ← split, String.ofList_toList]
    · rw [← utf8ByteSize_ofList]
      rfl

theorem isBoundary_width (h : text.toList = before ++ behind) : IsBoundary text (width before) :=
  isBoundary_iff.2 ⟨before, behind, h, rfl⟩

theorem offset_of_split (h : text.toList = before ++ behind) :
    offset text before.length = width before := by
  rw [offset, h, List.take_left]

theorem width_le (h : text.toList = before ++ behind) : width before ≤ (utf8 text).length := by
  rw [length_utf8, h, width_append]
  exact Nat.le_add_right _ _

theorem width_pos (h : cs ≠ []) : 0 < width cs := by
  obtain ⟨c, rest, rfl⟩ := List.exists_cons_of_ne_nil h
  rw [width, List.flatMap_cons, List.length_append]
  exact Nat.add_pos_left (List.length_pos_iff.2 String.utf8EncodeChar_ne_nil) _

theorem extract_of_split (h : text.toList = before ++ inside ++ behind)
    (first : IsBoundary text (width before)) (last : IsBoundary text (width (before ++ inside))) :
    text.extract ⟨⟨width before⟩, first⟩ ⟨⟨width (before ++ inside)⟩, last⟩ =
      String.ofList inside := by
  have size (cs : List Char) : width cs = cs.utf8Encode.size := by
    rw [List.utf8Encode, width]
    simp
  have bytes : text.toByteArray = (before ++ inside).utf8Encode ++ behind.utf8Encode := by
    rw [← List.utf8Encode_append, ← h, String.utf8Encode_toList]
  rw [← String.toByteArray_inj, String.toByteArray_extract, bytes, String.toByteArray_ofList]
  dsimp only
  rw [size (before ++ inside), ByteArray.extract_append_size_left, List.utf8Encode_append]
  exact ByteArray.extract_append_eq_right (size before) ByteArray.size_append

/-- The bytes of a character stand behind those of the characters in front of it. -/
theorem getElem?_utf8 {c : Char} (h : text.toList = before ++ c :: behind) {k : Nat}
    (hk : k < (String.utf8EncodeChar c).length) :
    (utf8 text)[width before + k]? = some (String.utf8EncodeChar c)[k] := by
  rw [utf8_eq_flatMap, h, List.flatMap_append, List.flatMap_cons, width,
    List.getElem?_append_right (Nat.le_add_right _ _), Nat.add_sub_cancel_left,
    List.getElem?_append_left hk, List.getElem?_eq_getElem hk]

/-- Where the byte of an ASCII character stands, that character stands. -/
theorem exists_split_of_getElem? {place : Nat} {c : Char} (ascii : c.toNat < 128)
    (h : (utf8 text)[place]? = some c.toUInt8) :
    ∃ before behind, text.toList = before ++ c :: behind ∧ width before = place := by
  rw [utf8_eq_flatMap] at h
  generalize text.toList = cs at h
  induction cs generalizing place with
  | nil => simp at h
  | cons d ds ih =>
    rw [List.flatMap_cons] at h
    by_cases later : (String.utf8EncodeChar d).length ≤ place
    · rw [List.getElem?_append_right later] at h
      obtain ⟨before, behind, split, same⟩ := ih h
      refine ⟨d :: before, behind, by rw [split, List.cons_append], ?_⟩
      rw [← List.singleton_append, width_append, same, width, List.flatMap_singleton]
      exact Nat.add_sub_cancel' later
    · rw [List.getElem?_append_left (Nat.not_le.1 later)] at h
      obtain rfl := eq_of_mem_utf8EncodeChar ascii (List.mem_of_getElem? h)
      rw [utf8EncodeChar_of_ascii ascii, List.length_singleton, Nat.not_le, Nat.lt_one_iff] at later
      exact ⟨[], ds, rfl, later.symm⟩

/-- A text begins with another one where its bytes do. -/
theorem utf8_prefix_iff {s t : String} : utf8 s <+: utf8 t ↔ s.toList <+: t.toList := by
  constructor
  · rintro ⟨rest, eq⟩
    refine List.isPrefix_of_utf8Encode_append_eq_utf8Encode rest.toByteArray ?_
    rw [String.utf8Encode_toList, String.utf8Encode_toList]
    refine ByteArray.ext (Array.toList_inj.1 ?_)
    rw [ByteArray.data_append, Array.toList_append, List.toList_data_toByteArray]
    exact eq
  · rintro ⟨rest, eq⟩
    rw [utf8_eq_flatMap, utf8_eq_flatMap, ← eq, List.flatMap_append]
    exact List.prefix_append _ _

end Stencil.Text
