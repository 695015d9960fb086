namespace DeclTree.Text

def utf8 (s : String) : List UInt8 := s.toList.flatMap String.utf8EncodeChar

@[simp] theorem utf8_empty : utf8 "" = [] := rfl

@[simp] theorem utf8_append (s t : String) : utf8 (s ++ t) = utf8 s ++ utf8 t := by
  simp [utf8]

@[simp] theorem length_utf8 (s : String) : (utf8 s).length = s.utf8ByteSize := by
  have h : (utf8 s).toByteArray = s.toByteArray := String.utf8Encode_toList
  rw [← List.size_toByteArray, h, String.size_toByteArray]

def wordChar (c : Char) : Bool := c.isAlphanum || c = '_'

def wordByte (b : UInt8) : Bool := wordChar (Char.ofUInt8 b)

def wordBreak : Option UInt8 → Option UInt8 → Bool
  | some a, some b => !(wordByte a && wordByte b)
  | _, _ => true

/-- Whether `needle` occurs in `hay` with a word break at both ends, where `before` is the byte in
front of `hay`. -/
def occurs (needle : List UInt8) (before : Option UInt8) : List UInt8 → Bool
  | [] => false
  | b :: rest =>
    needle.isPrefixOf (b :: rest) && wordBreak before needle.head? &&
        wordBreak needle.getLast? ((b :: rest).drop needle.length).head? ||
      occurs needle (some b) rest

def hasWord (hay needle : String) : Bool :=
  !needle.isEmpty && occurs (utf8 needle) none (utf8 hay)

end DeclTree.Text
