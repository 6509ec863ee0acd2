import MooScript.Toml

/-! Settings of the interpreter. -/
namespace MooScript

structure Configuration where
  /-- The most elements that a range may have. -/
  maxRangeLength : Nat := 1000000
  /-- Which log messages are shown. -/
  logFilter : Option String := none
  deriving DecidableEq

namespace Configuration

def set? (c : Configuration) : String × Toml.Setting → Option Configuration
  | ("max_range_len", .integer n) =>
    if 0 ≤ n then some { c with maxRangeLength := n.toInt.toNat } else none
  | ("log_filter", .string s) => some { c with logFilter := some s }
  | _ => none

/-- The defaults, changed by a document that sets known keys at most once. -/
def ofToml? (document : String) : Option Configuration := do
  let settings ← Toml.read? document
  if (settings.map Prod.fst).Nodup then settings.foldlM set? {} else none

end Configuration
end MooScript
