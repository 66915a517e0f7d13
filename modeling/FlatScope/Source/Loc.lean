/-!
# Places in a source text

A `Loc` names a stretch of one source by byte offsets in its UTF-8 form.
-/

namespace FlatScope

/-- The bytes from `start` up to `stop` of source number `source`. -/
structure Loc where
  source : Nat
  start : Nat
  stop : Nat
deriving DecidableEq, Repr, Inhabited

end FlatScope
