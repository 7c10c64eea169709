/-! # Options of a pass -/

namespace SourceLayout

structure Options where
  tabWidth : Nat := 2
  shift : Nat := 0
  cursor : Option Nat := none
  embedding : Bool := true
  strict : Bool := false
  deriving DecidableEq, Repr, Inhabited

namespace Options

/-- The options of a pass over embedded code: neither shifted nor holding the cursor. -/
def nested (o : Options) : Options := { o with shift := 0, cursor := none }

/-- The options under a debug setting: any value, even an empty one, makes embedding strict. -/
def ofDebugSetting (setting : Option String) : Options := { strict := setting.isSome }

end Options

end SourceLayout
