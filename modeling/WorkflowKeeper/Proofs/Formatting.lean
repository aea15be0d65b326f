import WorkflowKeeper.Proofs.Layout.Texts
import WorkflowKeeper.Proofs.SettledLayout

namespace WorkflowKeeper.Check.Format

open Text
open Workflow (trimEndGaps)
open Yaml (Laid Shift Scan)

variable {width indent : Nat} {levels : Levels}

/-- Whether the tokens outside of flow collections stand on the same side of every open block before and after the repair,
and the scalars have the same lines. -/
def keepsPlaces (s : FormatSettings) (raw : List Char) : Bool :=
  Scan.keepsPlaces ((Scan.ofText raw).cursor.rest.length + 1) (Scan.ofText raw) (Scan.ofText (format s raw))

end WorkflowKeeper.Check.Format
