import LedgerFields.Text
import Mathlib.Data.List.Basic

/-! Texts and their UTF-8 bytes. Bytes spell a text just when they are those of one, and where they
are divided beside bytes of ASCII, the text is divided with them. -/

namespace LedgerFields.Text

variable {s : String} {c : Char} {b : UInt8} {bytes : List UInt8}

theorem toByteArray_toBytes (s : String) : (toBytes s).toByteArray = s.toByteArray :=
  String.utf8Encode_toList

theorem mk_toArray (bytes : List UInt8) : (⟨bytes.toArray⟩ : ByteArray) = bytes.toByteArray :=
  ByteArray.ext List.data_toByteArray.symm

/-- Bytes spell a text when they are its bytes. -/
theorem ofBytes?_eq_some_iff : ofBytes? bytes = some s ↔ toBytes s = bytes := by
  unfold ofBytes? String.fromUTF8?
  rw [mk_toArray]
  constructor
  · intro h
    split at h
    · next hvalid =>
      cases h
      have hbytes : (toBytes (String.fromUTF8 _ hvalid)).toByteArray = bytes.toByteArray :=
        toByteArray_toBytes _
      simpa using congrArg (fun array => array.data.toList) hbytes
    · cases h
  · rintro rfl
    rw [toByteArray_toBytes, dif_pos s.isValidUTF8]
    rfl

/-! ### Characters of ASCII -/

/-- A byte of a character is the character itself or no ASCII. -/
theorem toNat_of_mem_utf8EncodeChar (hb : b ∈ String.utf8EncodeChar c) :
    b.toNat = c.toNat ∨ 128 ≤ b.toNat := by
  unfold String.utf8EncodeChar at hb
  dsimp only at hb
  split at hb
  · rw [List.mem_singleton] at hb
    left
    rw [hb, UInt8.toNat_ofNat']
    show c.val.toNat % 2 ^ 8 = c.val.toNat
    omega
  · right
    split at hb
    · simp only [List.mem_cons, List.not_mem_nil, or_false] at hb
      rcases hb with rfl | rfl <;> rw [UInt8.toNat_ofNat'] <;> omega
    · split at hb <;> simp only [List.mem_cons, List.not_mem_nil, or_false] at hb
      · rcases hb with rfl | rfl | rfl <;> rw [UInt8.toNat_ofNat'] <;> omega
      · rcases hb with rfl | rfl | rfl | rfl <;> rw [UInt8.toNat_ofNat'] <;> omega

/-- A character of ASCII is one byte. -/
theorem utf8EncodeChar_of_lt (h : c.toNat < 128) :
    String.utf8EncodeChar c = [UInt8.ofNat c.toNat] := by
  have hc : c.utf8Size = 1 := by
    rw [Char.utf8Size_eq_one_iff, UInt32.le_iff_toNat_le]
    exact Nat.le_of_lt_succ h
  rw [String.utf8EncodeChar_eq_singleton hc]
  rfl

/-- A character with a byte of ASCII is that byte. -/
theorem utf8EncodeChar_of_mem (hb : b ∈ String.utf8EncodeChar c) (hascii : b.toNat < 128) :
    String.utf8EncodeChar c = [b] := by
  have hc : b.toNat = c.toNat :=
    (toNat_of_mem_utf8EncodeChar hb).resolve_right (Nat.not_le.mpr hascii)
  rw [utf8EncodeChar_of_lt (hc ▸ hascii), ← hc, UInt8.ofNat_toNat]

/-- Bytes of ASCII spell the characters that they are. -/
theorem encode_chars (h : ∀ b ∈ bytes, b.toNat < 128) :
    (bytes.map fun b => Char.ofNat b.toNat).flatMap String.utf8EncodeChar = bytes := by
  induction bytes with
  | nil => rfl
  | cons b bytes ih =>
    obtain ⟨hb, hbytes⟩ := List.forall_mem_cons.mp h
    have hc : (Char.ofNat b.toNat).toNat = b.toNat := by
      have hvalid : b.toNat.isValidChar := .inl (by omega)
      rw [Char.ofNat, dif_pos hvalid]
      rfl
    rw [List.map_cons, List.flatMap_cons, ih hbytes, utf8EncodeChar_of_lt (by rwa [hc]), hc,
      UInt8.ofNat_toNat]
    rfl

/-! ### Dividing a text with its bytes -/

/-- Where bytes are divided so that one part is ASCII, the characters are divided with them. -/
theorem exists_divided {cs : List Char} {before after : List UInt8}
    (h : cs.flatMap String.utf8EncodeChar = before ++ after)
    (hascii : (∀ b ∈ before, b.toNat < 128) ∨ ∀ b ∈ after, b.toNat < 128) :
    ∃ first last, cs = first ++ last ∧ first.flatMap String.utf8EncodeChar = before ∧
      last.flatMap String.utf8EncodeChar = after := by
  rw [List.flatMap_def, List.flatten_eq_append_iff] at h
  rcases h with ⟨_, _, hcs, rfl, rfl⟩ | ⟨_, opening, b, closing, _, hcs, rfl, rfl⟩
  · obtain ⟨first, last, rfl, rfl, rfl⟩ := List.map_eq_append_iff.mp hcs
    exact ⟨first, last, rfl, rfl, rfl⟩
  · -- Between the bytes of one character neither part is ASCII, unless the first ends before it.
    obtain ⟨first, rest, rfl, rfl, hrest⟩ := List.map_eq_append_iff.mp hcs
    obtain ⟨c, last, rfl, hc, rfl⟩ := List.map_eq_cons_iff.mp hrest
    cases opening with
    | nil =>
      refine ⟨first, c :: last, rfl, ?_, ?_⟩
      · rw [List.flatMap_def, List.append_nil]
      · rw [List.flatMap_cons, List.flatMap_def, hc, List.nil_append]
    | cons b' opening =>
      obtain ⟨b'', hmem, hlt⟩ : ∃ b'' ∈ String.utf8EncodeChar c, b''.toNat < 128 := by
        rw [hc]
        rcases hascii with hbefore | hafter
        · exact ⟨b', by simp, hbefore b' (by simp)⟩
        · exact ⟨b, by simp, hafter b (by simp)⟩
      have hlength := congrArg List.length (utf8EncodeChar_of_mem hmem hlt)
      rw [hc] at hlength
      simp only [List.length_append, List.length_cons, List.length_nil] at hlength
      omega

end LedgerFields.Text
