import Mathlib.Data.String.Basic
import PulseTrain.Fault

/-!
# Clipped messages

Characters are kept one after the other until one does not fit, and a shorter one behind it
is not tried any more.  What is kept is the longest head of the text that fits: a head that
fits is kept as a whole, since each of its characters finds enough room, and the next
character ends the clipping.
-/

namespace PulseTrain

namespace Text

open String

/-- The head is made of the first characters of the text, as many as `room` bytes can hold. -/
structure LongestHead (room : ℕ) (head text : String) : Prop where
  append : ∃ rest, text = head ++ rest
  boundary : head.rawEndPos.IsValid text
  fits : head.utf8ByteSize ≤ room
  whole_or_full : head = text ∨ ∃ next rest,
    text = head ++ singleton next ++ rest ∧ room < head.utf8ByteSize + next.utf8Size
  longest : ∀ other rest, text = other ++ rest → other.utf8ByteSize ≤ room →
    ∃ more, head = other ++ more

variable {room : ℕ} {text head other : String}

theorem LongestHead.unique (hhead : LongestHead room head text)
    (hother : LongestHead room other text) : head = other := by
  obtain ⟨rest, hrest⟩ := hhead.append
  obtain ⟨rest', hrest'⟩ := hother.append
  obtain ⟨more, hmore⟩ := hhead.longest other rest' hrest' hother.fits
  obtain ⟨more', hmore'⟩ := hother.longest head rest hrest hhead.fits
  have hsize := congrArg utf8ByteSize hmore
  have hsize' := congrArg utf8ByteSize hmore'
  rw [utf8ByteSize_append] at hsize hsize'
  have hnone : more = "" := utf8ByteSize_eq_zero_iff.mp (by omega)
  rw [hmore, hnone, append_empty]

/-! ## Characters -/

theorem clipChars_prefix (room : ℕ) (chars : List Char) : clipChars room chars <+: chars := by
  induction chars generalizing room with
  | nil => exact List.nil_prefix
  | cons c rest ih =>
    rw [clipChars]
    split_ifs with hfits
    · exact List.cons_prefix_cons.mpr ⟨rfl, ih _⟩
    · exact List.nil_prefix

/-- What fits is kept, and what follows is clipped to the room that is left. -/
theorem clipChars_append {chars : List Char} (h : utf8Len chars ≤ room) (rest : List Char) :
    clipChars room (chars ++ rest) = chars ++ clipChars (room - utf8Len chars) rest := by
  induction chars generalizing room with
  | nil => rfl
  | cons c chars ih =>
    rw [utf8Len_cons] at h ⊢
    rw [List.cons_append, clipChars, if_pos (by omega), ih (by omega), List.cons_append,
      Nat.sub_sub, Nat.add_comm c.utf8Size]

/-! ## Texts -/

theorem exists_eq_clip_append (room : ℕ) (text : String) :
    ∃ rest, text = clip room text ++ rest := by
  obtain ⟨rest, hrest⟩ := clipChars_prefix room text.toList
  refine ⟨ofList rest, ?_⟩
  rw [clip, ← ofList_append, hrest, ofList_toList]

theorem clip_append (h : head.utf8ByteSize ≤ room) (rest : String) :
    clip room (head ++ rest) = head ++ clip (room - head.utf8ByteSize) rest := by
  have hsize : utf8Len head.toList = head.utf8ByteSize := by
    rw [← utf8ByteSize_ofList, ofList_toList]
  rw [clip, toList_append, clipChars_append (hsize ▸ h), ofList_append, ofList_toList, hsize, clip]

/-- A character that comes next and fits would have been kept as well. -/
theorem lt_utf8ByteSize_clip_add {next : Char} {rest : String}
    (h : text = clip room text ++ singleton next ++ rest) :
    room < (clip room text).utf8ByteSize + next.utf8Size := by
  by_contra hroom
  have hfits : (clip room text ++ singleton next).utf8ByteSize ≤ room := by
    rw [utf8ByteSize_append, utf8ByteSize_singleton]
    omega
  have hkept := clip_append hfits rest
  rw [← h] at hkept
  have hsize := congrArg utf8ByteSize hkept
  simp only [utf8ByteSize_append, utf8ByteSize_singleton] at hsize
  have := next.utf8Size_pos
  omega

theorem longestHead_clip (room : ℕ) (text : String) :
    LongestHead room (clip room text) text := by
  obtain ⟨rest, hrest⟩ := exists_eq_clip_append room text
  refine ⟨⟨rest, hrest⟩, Pos.Raw.isValid_iff_exists_append.mpr ⟨_, rest, hrest, rfl⟩,
    utf8ByteSize_clip_le room text, ?_, ?_⟩
  · cases hchars : rest.toList with
    | nil =>
      rw [← ofList_toList (s := rest), hchars, ofList_nil, append_empty] at hrest
      exact .inl hrest.symm
    | cons next more =>
      rw [← ofList_toList (s := rest), hchars, ofList_cons, ← append_assoc] at hrest
      exact .inr ⟨next, _, hrest, lt_utf8ByteSize_clip_add hrest⟩
  · rintro other rest rfl hfits
    exact ⟨_, clip_append hfits rest⟩

/-- Stored is the longest head of a message that 128 bytes can hold, and nothing else. -/
theorem eq_clip_iff_longestHead :
    head = clip DocumentFault.capacity text ↔ LongestHead 128 head text := by
  constructor
  · rintro rfl
    exact longestHead_clip _ text
  · intro hlongest
    exact hlongest.unique (longestHead_clip _ text)

example : clip 4 "aé€b" = "aé" := by decide

end Text

end PulseTrain
