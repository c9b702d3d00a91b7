import QueryStats.Text

/-! # Why a query was answered the way it was -/

namespace QueryStats

/-- The filter that decided a query, if one did. -/
inductive Category where
  | unfiltered
  | lists
  | safeBrowsing
  | safeSearch
  | parental
deriving DecidableEq, Repr

namespace Category

/-- The category that the reason of a log entry names; any other reason leaves the query
unfiltered. -/
def ofReason (reason : Text) : Category :=
  if reason = utf8 "FilteredBlackList" then lists
  else if reason = utf8 "FilteredSafeBrowsing" then safeBrowsing
  else if reason = utf8 "FilteredSafeSearch" then safeSearch
  else if reason = utf8 "FilteredParental" then parental
  else unfiltered

/-- The reason that names a category; none names the unfiltered one. -/
def reason? : Category → Option Text
  | unfiltered => none
  | lists => some (utf8 "FilteredBlackList")
  | safeBrowsing => some (utf8 "FilteredSafeBrowsing")
  | safeSearch => some (utf8 "FilteredSafeSearch")
  | parental => some (utf8 "FilteredParental")

/-- Every category but the last has one reason of its own. -/
theorem ofReason_eq_iff {reason : Text} {c : Category} (h : c ≠ unfiltered) :
    ofReason reason = c ↔ c.reason? = some reason := by
  unfold ofReason
  constructor
  · intro e
    repeat' split at e
    all_goals subst e; simp_all [reason?]
  · intro e
    cases c with
    | unfiltered => exact absurd rfl h
    | _ => injection e with e; subst e; decide

end Category

end QueryStats
