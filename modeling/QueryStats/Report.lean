import QueryStats.Decimal.Layout
import QueryStats.Rates
import QueryStats.Store
import QueryStats.Window

/-! # Summaries and reports -/

namespace QueryStats

/-- The six figures that are shown, each under the name of its metric. -/
structure Figures (α : Type) where
  queries : α
  blocked : α
  safeBrowsing : α
  safeSearch : α
  parental : α
  averageTime : α
deriving DecidableEq, Repr

namespace Figures

variable {α β : Type}

def map (f : α → β) (r : Figures α) : Figures β :=
  ⟨f r.queries, f r.blocked, f r.safeBrowsing, f r.safeSearch, f r.parental, f r.averageTime⟩

/-- The figures with their names, in the order in which they are shown. -/
def named (r : Figures α) : List (Text × α) :=
  [(utf8 "dns_queries", r.queries), (utf8 "blocked_filtering", r.blocked),
    (utf8 "replaced_safebrowsing", r.safeBrowsing), (utf8 "replaced_safesearch", r.safeSearch),
    (utf8 "replaced_parental", r.parental), (utf8 "avg_processing_time", r.averageTime)]

end Figures

/-! ## Figures of a moment and of a window -/

section

variable {α : Type} [Scalar α]

/-- The mean duration in seconds, zero if no query had one. -/
def averageSeconds (sum count : α) : α := if Scalar.isPositive count then sum / count else 0

/-- The mean duration in milliseconds, zero if no query had one. -/
def averageMillis (sum count : α) : α :=
  if Scalar.isZero count then 0 else sum / count * Scalar.thousand

/-- The figures since the start. -/
def Metrics.summary (m : Metrics α) : Figures α where
  queries := m.requests
  blocked := m.lists
  safeBrowsing := m.safeBrowsing
  safeSearch := m.safeSearch
  parental := m.parental
  averageTime := averageSeconds m.timeSum m.timeCount

namespace View

/-- How many buckets every series has; a history below zero has none. -/
def limit (v : View α) : Nat := (v.series.toList.map List.length).foldl min v.history.toNat

/-- The part of a window that every series covers. -/
def span (v : View α) (w : Window) : Window :=
  let w := w.within v.history
  ⟨w.first, min w.last v.limit⟩

/-- The figures of each bucket of a window whose start the series cover. -/
def report (v : View α) (w : Window) : Figures (List α) :=
  let w := v.span w
  if w.last ≤ w.first then ⟨[], [], [], [], [], []⟩
  else
    let rate := fun series => rates (slice w.first.toNat w.last.toNat series)
    { queries := rate v.series.requests
      blocked := rate v.series.lists
      safeBrowsing := rate v.series.safeBrowsing
      safeSearch := rate v.series.safeSearch
      parental := rate v.series.parental
      averageTime := List.zipWith averageMillis (rate v.series.timeSum) (rate v.series.timeCount) }

end View

end

/-! ## Text -/

namespace Report

/-- Figures have 15 significant digits, and an exponent below `1e-4` and from `1e+15` on.  A NaN can
only come from an operation that has no result, such as the difference of two infinities, since no
NaN is recorded as a duration.  The sign that the operation gives it is negative, and stays. -/
def figure : Decimal.Layout := ⟨15, -4, 2, .negative⟩

def number (x : Float) : Text := figure.render x

def numbers (xs : List Float) : Text :=
  utf8 "[" ++ List.intercalate (utf8 ", ") (xs.map number) ++ utf8 "]"

def member (m : Text × Text) : Text := utf8 "  \"" ++ m.1 ++ utf8 "\": " ++ m.2

/-- One figure on each line, between braces. -/
def object (r : Figures Text) : Text :=
  utf8 "\x7b\n" ++ List.intercalate (utf8 ",\n") (r.named.map member) ++ utf8 "\n\x7d\n"

/-- The text of a summary. -/
def ofSummary (r : Figures Float) : Text := object (r.map number)

/-- The text of a report. -/
def ofSeries (r : Figures (List Float)) : Text := object (r.map numbers)

end Report

end QueryStats
