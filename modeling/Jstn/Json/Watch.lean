import Jstn.Json.Position
import Jstn.Text.Utf8

/-!
# Watching for UTF-8

Some skipped values have to be UTF-8.  They are not decoded: a watch looks at
their bytes as they go by and remembers where the first unsound character began.
-/

namespace Jstn

namespace Json

/-- Whether the bytes of a skipped value are UTF-8 so far. -/
inductive Watch
  /-- They are.  `lead` is the position after the first byte of the last
  character. -/
  | sound (s : Utf8.State) (lead : Position)
  /-- They are not.  `position` is that after the first byte of the first
  character that is not sound. -/
  | broken (position : Position)
deriving DecidableEq, Inhabited

namespace Watch

/-- One byte at a position. -/
def feed (w : Watch) (p : Position) (b : UInt8) : Watch :=
  match w with
  | broken q => broken q
  | sound s lead =>
      let lead := if s = .boundary then p.after b else lead
      match Utf8.step s b with
      | .char _ => sound .boundary lead
      | .more s => sound s lead
      | .bad => broken lead

end Watch

end Json

end Jstn
