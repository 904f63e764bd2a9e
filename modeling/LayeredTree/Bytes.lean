set_option autoImplicit false

-- A power means the same whatever else is imported.
attribute [instance (2000), default_instance 20000] instPowNat

namespace LayeredTree

abbrev Bytes := List UInt8

instance : LawfulBEq Bytes := inferInstance

namespace Bytes

def ofString (s : String) : Bytes := s.toUTF8.data.toList

def toString? (b : Bytes) : Option String := String.fromUTF8? ⟨b.toArray⟩

/-- Pieces between separators; there is always one more piece than there are separators. -/
def splitOn (sep : UInt8) : Bytes → List Bytes
  | [] => [[]]
  | b :: rest =>
    if b = sep then [] :: splitOn sep rest
    else match splitOn sep rest with
      | [] => [[b]]
      | piece :: pieces => (b :: piece) :: pieces

def joinWith (sep : UInt8) : List Bytes → Bytes
  | [] => []
  | [piece] => piece
  | piece :: pieces => piece ++ sep :: joinWith sep pieces

/-- Byte order: the first difference decides, and a proper start comes first. -/
def before : Bytes → Bytes → Bool
  | [], [] => false
  | [], _ :: _ => true
  | _ :: _, [] => false
  | a :: as, b :: bs => if a < b then true else if b < a then false else before as bs

def atMost (a b : Bytes) : Bool := !before b a

/-- Big-endian bytes of a number, cut to the given width. -/
def bigEndian : Nat → Nat → Bytes
  | 0, _ => []
  | width + 1, n => bigEndian width (n / 256) ++ [UInt8.ofNat (n % 256)]

theorem splitOn_ne_nil (sep : UInt8) (b : Bytes) : splitOn sep b ≠ [] := by
  cases b with
  | nil => simp [splitOn]
  | cons a rest =>
    by_cases h : a = sep
    · simp [splitOn, h]
    · cases hs : splitOn sep rest <;> simp [splitOn, h, hs]

theorem joinWith_splitOn (sep : UInt8) (b : Bytes) : joinWith sep (splitOn sep b) = b := by
  induction b with
  | nil => rfl
  | cons a rest ih =>
    cases hs : splitOn sep rest with
    | nil => exact absurd hs (splitOn_ne_nil sep rest)
    | cons piece pieces =>
      by_cases h : a = sep
      · rw [splitOn, if_pos h, hs, joinWith, ← hs, ih, h, List.nil_append]
        exact List.cons_ne_nil _ _
      · rw [hs] at ih
        rw [splitOn, if_neg h, hs]
        cases pieces with
        | nil => simpa [joinWith] using ih
        | cons p ps => simpa [joinWith] using ih

end Bytes

def slash : UInt8 := 47

end LayeredTree
