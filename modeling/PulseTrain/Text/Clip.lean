/-!
# Clipped text

Messages are kept short: only their head is stored, as many whole characters as
fit into a given number of bytes.
-/

namespace PulseTrain.Text

def clipChars : Nat → List Char → List Char
  | _, [] => []
  | room, c :: rest => if c.utf8Size ≤ room then c :: clipChars (room - c.utf8Size) rest else []

/-- The head of a text that fits into `room` bytes, in whole characters. -/
def clip (room : Nat) (s : String) : String := String.ofList (clipChars room s.toList)

theorem utf8ByteSize_clipChars_le (room : Nat) (chars : List Char) :
    (String.ofList (clipChars room chars)).utf8ByteSize ≤ room := by
  induction chars generalizing room with
  | nil => exact Nat.zero_le room
  | cons c rest ih =>
    rw [clipChars]
    split
    next hfits =>
      have := ih (room - c.utf8Size)
      rw [String.ofList_cons, String.utf8ByteSize_append, String.utf8ByteSize_singleton]
      omega
    next => exact Nat.zero_le room

theorem utf8ByteSize_clip_le (room : Nat) (s : String) : (clip room s).utf8ByteSize ≤ room :=
  utf8ByteSize_clipChars_le room s.toList

end PulseTrain.Text
