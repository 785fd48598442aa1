import FenceSync.Text.Basic
/-!
# Bytes as text

Bytes that are UTF-8 are a text. In other bytes every piece that begins a character and does not end
it is shown as a replacement character.
-/
namespace FenceSync.Text

def ofBytes? (bytes : Bytes) : Option Text := bytes.toByteArray.utf8Decode?.map Array.toList

theorem ofBytes?_bytes (t : Text) : ofBytes? t.bytes = some t := by
  have h : t.bytes.toByteArray.utf8Decode? = some t.toArray := List.utf8Decode?_utf8Encode
  simp [ofBytes?, h]

/-- Whether a character of three or four bytes can begin with the two bytes. -/
def isBeginning (a b : UInt8) : Bool :=
  if a = 0xe0 then 0xa0 ≤ b && b ≤ 0xbf
  else if a = 0xed then 0x80 ≤ b && b ≤ 0x9f
  else if a = 0xf0 then 0x90 ≤ b && b ≤ 0xbf
  else if a = 0xf4 then 0x80 ≤ b && b ≤ 0x8f
  else 0xe1 ≤ a && a ≤ 0xf3 && 0x80 ≤ b && b ≤ 0xbf

/-- How many bytes in front are shown as one when no character stands there. -/
def brokenLength : Bytes → Nat
  | a :: b :: rest =>
    if !isBeginning a b then 1
    else if a < 0xf0 then 2
    else match rest with
      | c :: _ => if 0x80 ≤ c && c ≤ 0xbf then 3 else 2
      | [] => 2
  | _ => 1

/-- The bytes as they are shown, less some in front that are shown already. -/
def showFrom : Nat → Bytes → Text
  | _, [] => []
  | skip + 1, _ :: bs => showFrom skip bs
  | 0, b :: bs =>
    match (b :: bs).toByteArray.utf8DecodeChar? 0 with
    | some c => c :: showFrom (c.utf8Size - 1) bs
    | none => '\uFFFD' :: showFrom (brokenLength (b :: bs) - 1) bs

def ofBytes (bytes : Bytes) : Text := showFrom 0 bytes

theorem showFrom_append (s t : Bytes) : showFrom s.length (s ++ t) = showFrom 0 t := by
  induction s with
  | nil => rfl
  | cons b s ih => exact ih

/-- A text is shown as it is. -/
theorem ofBytes_bytes (t : Text) : ofBytes t.bytes = t := by
  induction t with
  | nil => rfl
  | cons c t ih =>
    have hsize : (String.utf8EncodeChar c).length = c.utf8Size := String.length_utf8EncodeChar c
    obtain ⟨b, bs, hb⟩ := List.exists_cons_of_length_pos (hsize ▸ c.utf8Size_pos)
    have hdecode : (b :: (bs ++ bytes t)).toByteArray.utf8DecodeChar? 0 = some c := by
      rw [← List.cons_append, ← hb, List.toByteArray_append]
      exact ByteArray.utf8DecodeChar?_utf8EncodeChar_append
    have hbytes : bytes (c :: t) = b :: (bs ++ bytes t) := by
      rw [← List.cons_append, ← hb]
      rfl
    rw [hb, List.length_cons] at hsize
    rw [hbytes, ofBytes, showFrom]
    simp only [hdecode, ← hsize, Nat.add_sub_cancel, showFrom_append]
    exact congrArg (c :: ·) ih

example : ofBytes [0x2e, 0xe2, 0x82, 0xff, 0x61] = ".\uFFFD\uFFFDa".toList := by decide +kernel

end FenceSync.Text
