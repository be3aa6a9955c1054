import Std.Data.ExtTreeMap
import Std.Data.ExtTreeSet

/-! # Sets and tables of names

Finite sets of names and finite tables keyed by names. Two of them are equal as soon as they have
the same members or entries; they are listed in the order of their names.
-/

namespace Ownership

abbrev Names := Std.ExtTreeSet String

abbrev NameMap (α : Type) := Std.ExtTreeMap String α

instance : DecidableEq (NameMap Names) := inferInstance

end Ownership
