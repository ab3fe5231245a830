import Unbroken.Proofs.Text.Sheds

/-! Texts as bytes. -/

namespace Unbroken

theorem fromUTF8?_eq_some_iff (bytes : ByteArray) (text : String) :
    String.fromUTF8? bytes = some text ↔ bytes = text.toUTF8 := by
  rw [String.fromUTF8?]
  constructor
  · intro found
    split at found
    · cases found
      rfl
    · cases found
  · rintro rfl
    exact dif_pos text.isValidUTF8

theorem toUTF8_ofList_inj {left right : List Char}
    (same : (String.ofList left).toUTF8 = (String.ofList right).toUTF8) : left = right := by
  have read := (fromUTF8?_eq_some_iff _ _).mpr same
  rw [(fromUTF8?_eq_some_iff _ _).mpr rfl, Option.some.injEq] at read
  simpa using congrArg String.toList read

theorem size_toUTF8_ofList (text : List Char) :
    (String.ofList text).toUTF8.size = (text.map Char.utf8Size).sum := by
  rw [String.toUTF8_eq_toByteArray, String.toByteArray_ofList]
  induction text with
  | nil => rfl
  | cons letter rest ih =>
      rw [List.utf8Encode_cons, ByteArray.size_append, ih, List.map_cons, List.sum_cons]
      simp [List.utf8Encode_singleton]

theorem Sheds.size_le {new old : List Char} (sheds : Sheds new old) :
    (String.ofList new).toUTF8.size ≤ (String.ofList old).toUTF8.size := by
  rw [size_toUTF8_ofList, size_toUTF8_ofList]
  refine sheds.sum_le fun letter _ => ?_
  have space : Char.utf8Size ' ' = 1 := rfl
  rw [space]
  exact letter.utf8Size_pos

end Unbroken
