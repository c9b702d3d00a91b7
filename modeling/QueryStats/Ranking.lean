import QueryStats.Json.Quoted
import QueryStats.Ranking.Selection

/-! # Keys ranked by count -/

namespace QueryStats.Ranking

/-- Tallies in the order of their rank. -/
def sort (ts : List Tally) : List Tally := ts.mergeSort fun a b => (Tally.order a b).isLE

/-- The `n` tallies of highest rank, in order; none if `n` is negative.  When there are more than
`n`, only those that stay are sorted. -/
def top (n : Int) (ts : List Tally) : List Tally :=
  if ts.length ≤ n.toNat then sort ts else sort ((Tally.select n.toNat ts).take n.toNat)

/-- All keys in the order of their rank. -/
def keys (ts : List Tally) : List Text := (sort ts).map (·.1)

/-- The text of ranked tallies, an object with a member for each. -/
def text (ts : List Tally) : Text :=
  utf8 "\x7b" ++ List.intercalate (utf8 ", ")
      (ts.map fun t => Json.quoted t.1 ++ utf8 ":" ++ Text.ofNat t.2.toNat)
    ++ utf8 "\x7d\n"

end QueryStats.Ranking
