import DeclTree.Sink

namespace DeclTree

inductive Convention
  | spaced
  | lowerSnake
  | upperSnake
  | upperCamel
  | lowerCamel
  deriving DecidableEq

namespace Convention

open Rendering

def startsUpper : List Char → Bool
  | [] => false
  | c :: _ => c.isUpper

def writeSpaced : List Char → Rendering Unit
  | [] => done ()
  | c :: rest =>
    if c = '_' then writeSpaced rest
    else do
      char c
      if startsUpper rest || rest.head? = some '_' then char ' '
      writeSpaced rest

def writeSnake (upper : Bool) : List Char → Rendering Unit
  | [] => done ()
  | c :: rest => do
    char (if upper then c.toUpper else c.toLower)
    if startsUpper rest then char '_'
    writeSnake upper rest

/-- Underscores are dropped, and the character after them is capitalized. `first` holds up to the
first character that is written. -/
def writeCamel (lowerFirst capitalize first : Bool) : List Char → Rendering Unit
  | [] => done ()
  | c :: rest =>
    if c = '_' then writeCamel lowerFirst true first rest
    else do
      char (if first && lowerFirst then c.toLower else if capitalize then c.toUpper else c)
      writeCamel lowerFirst false false rest

def render (convention : Convention) (name : String) : Rendering Unit :=
  match convention with
  | spaced => writeSpaced name.toList
  | lowerSnake => writeSnake false name.toList
  | upperSnake => writeSnake true name.toList
  | upperCamel => writeCamel false true true name.toList
  | lowerCamel => writeCamel true true true name.toList

def convert (convention : Convention) (name : String) : String :=
  ((convention.render name).into "").2

end Convention

end DeclTree
