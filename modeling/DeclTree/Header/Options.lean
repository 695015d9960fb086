namespace DeclTree

def version : String := "0.1.0"

namespace Header

def widestThreshold : Nat := 31

structure Options where
  indent : String := "    "
  tagComments : Bool := true
  wideFlagsThreshold : Nat := widestThreshold
  banner : Option String := some "Generated by desk-codegen"
  deriving DecidableEq

inductive Setting
  | indent (text : String)
  | withoutTagComments
  | wideFlagsThreshold (count : Nat)
  | banner (text : String)
  | withoutBanner
  deriving DecidableEq

namespace Options

def set (options : Options) : Setting → Options
  | .indent text => { options with indent := text }
  | .withoutTagComments => { options with tagComments := false }
  | .wideFlagsThreshold count => { options with wideFlagsThreshold := count }
  | .banner text => { options with banner := some text }
  | .withoutBanner => { options with banner := none }

def ofSettings (settings : List Setting) : Options := settings.foldl set {}

def isWide (options : Options) (count : Nat) : Bool :=
  min options.wideFlagsThreshold widestThreshold ≤ count

end Options

end Header

end DeclTree
