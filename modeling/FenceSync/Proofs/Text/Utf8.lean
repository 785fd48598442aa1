import FenceSync.Text.Utf8
/-!
# Texts in UTF-8

The bytes of a text tell the text, and its first byte tells whether it begins with a given ASCII
character.
-/
namespace FenceSync.Text

theorem ofBytes?_eq_some_iff {b : Bytes} {t : Text} : ofBytes? b = some t ↔ b = t.bytes := by
  constructor
  · intro h
    obtain ⟨a, ha, rfl⟩ := Option.map_eq_some_iff.1 h
    obtain ⟨l, hl⟩ := ByteArray.isSome_utf8Decode?_iff.1 (Option.isSome_of_eq_some ha)
    have hb : b = bytes l := List.toByteArray_inj.1 hl
    rw [hb, show (bytes l).toByteArray.utf8Decode? = some l.toArray from
      List.utf8Decode?_utf8Encode] at ha
    cases ha
    exact hb
  · rintro rfl
    exact ofBytes?_bytes t

theorem bytes_inj {s t : Text} : s.bytes = t.bytes ↔ s = t :=
  ⟨fun h => Option.some.inj (by rw [← ofBytes?_bytes s, h, ofBytes?_bytes]), congrArg bytes⟩

theorem eq_of_utf8EncodeChar_append {c d : Char} {s t : Bytes}
    (h : String.utf8EncodeChar c ++ s = String.utf8EncodeChar d ++ t) : c = d := by
  have hdecode (c : Char) (s : Bytes) :
      (String.utf8EncodeChar c ++ s).toByteArray.utf8DecodeChar? 0 = some c := by
    rw [List.toByteArray_append]
    exact ByteArray.utf8DecodeChar?_utf8EncodeChar_append
  exact Option.some.inj (by rw [← hdecode c s, h, hdecode])

theorem head?_bytes_eq_some_iff {t : Text} {c : Char} {b : UInt8}
    (hc : String.utf8EncodeChar c = [b]) : t.bytes.head? = some b ↔ t.head? = some c := by
  cases t with
  | nil => simp [bytes]
  | cons d t =>
    have hbytes : bytes (d :: t) = String.utf8EncodeChar d ++ bytes t := rfl
    rw [hbytes, List.head?_cons, Option.some.injEq]
    constructor
    · intro h
      obtain ⟨rest, hrest⟩ := List.head?_eq_some_iff.1 h
      refine eq_of_utf8EncodeChar_append (s := bytes t) (t := rest) ?_
      rw [hrest, hc]
      rfl
    · rintro rfl
      rw [hc]
      rfl

end FenceSync.Text
