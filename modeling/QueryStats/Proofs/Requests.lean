import QueryStats.Proofs.Buckets
import QueryStats.Proofs.Figures
import QueryStats.Proofs.Integers
import QueryStats.Proofs.Selecting
import QueryStats.Proofs.Session
import QueryStats.Proofs.Windows

/-!
# What is asked for with numbers

Rankings and reports are asked for with integers in decimal.  The console does what an integer says
if a signed word of 32 bits holds it.  Where one of the two of a report does not fit, the console
says how to ask.  Where that of a ranking does not fit, it goes on as if none had been given.
-/

namespace QueryStats

open Numeral (Denotes Fits Leads)

/-! ## Lines that are answered -/

namespace Console

/-- The line is answered and a prompt follows.  The console is left as it was, so that the lines
behind are answered as if they came first. -/
structure Says (c : Console) (l : Line) (r : Reply) : Prop where
  stays : (c.feed l).1 = c
  prints (more : List Line) : c.feedAll (l :: more) =
    { c.feedAll more with reply := r ++ ⟨utf8 "> ", []⟩ ++ (c.feedAll more).reply }

variable {c : Console} {l : Line} {k : Command}

/-- A command that changes nothing only replies. -/
theorem says_of_read (hc : c.mode = .ready) (hread : Command.read l.body = k)
    (hmode : modeAfter k = .ready) (heffect : effect k c.statistics = c.statistics) :
    c.Says l (reply c.statistics c.config k) := by
  have hfeed : c.feed l = (c, reply c.statistics c.config k ++ .say prompt) := by
    simp only [feed, hc, hread, hmode, heffect, promptAfter]
    rw [← hc]
  refine ⟨by rw [hfeed], fun more => ?_⟩
  rw [feedAll_cons (by simp [hc]), hfeed]
  rfl

end Console

/-! ## How the lines are read -/

namespace Command

variable {l : Line} {t rest behind : Text} {a : Attribute} {i : Int}

/-- After the word for a ranking and an attribute an integer may follow. -/
theorem ofWord_top (ht : t.Opens a.word rest) :
    ofWord (utf8 "TOP") t = .top (some a) ((Numeral.scanInt32 rest).map (·.1)) := by
  rw [ofWord, if_neg (by decide), if_neg (by decide), if_pos rfl, ht.word_eq]
  exact congrArg (top · _) (Attribute.ofWord?_word a)

/-- The attribute is followed by what it leaves of the line, but for blanks. -/
theorem read_top (h : l.content.Opens (utf8 "TOP") t) (ht : t.Opens a.word rest) :
    ∃ rest', rest.Sheds rest' ∧
      read l.body = .top (some a) ((Numeral.scanInt32 rest').map (·.1)) := by
  obtain ⟨t', ht', hbody⟩ := h.of_sheds (.body l)
  obtain ⟨rest', hrest, hword⟩ := ht.of_sheds ht'
  exact ⟨rest', hrest, by rw [read_of_opens hbody, ofWord_top hword]⟩

/-- An integer behind the attribute is taken if it fits. -/
theorem read_top_of_leads (h : l.content.Opens (utf8 "TOP") t) (ht : t.Opens a.word rest)
    (hi : Leads rest i behind) :
    read l.body = .top (some a) (if Fits i then some i else none) := by
  obtain ⟨rest', hrest, hread⟩ := read_top h ht
  obtain ⟨behind', -, hi'⟩ := hi.of_sheds hrest
  rw [hread, hi'.scanInt32]
  split_ifs <;> rfl

/-- Behind the attribute there may be no integer at all. -/
theorem read_top_of_not_leads (h : l.content.Opens (utf8 "TOP") t) (ht : t.Opens a.word rest)
    (hnone : ∀ i behind, ¬ Leads rest i behind) : read l.body = .top (some a) none := by
  obtain ⟨rest', hrest, hread⟩ := read_top h ht
  have hscan : Numeral.scanInt32 rest' = none := Numeral.scanInt32_of_not_leads fun i behind hi =>
    (hi.of_sheds_right hrest).elim (hnone i)
  rw [hread, hscan, Option.map_none]

/-- A history is asked for with two integers, and both have to fit. -/
theorem read_history (h : l.content.Opens (utf8 "HISTORY") t) {u : Text} {j : Int}
    (hi : Leads t i u) (hj : Leads u j rest) :
    read l.body = .history (if Fits i ∧ Fits j then some (i, j) else none) := by
  obtain ⟨t', ht, hbody⟩ := h.of_sheds (.body l)
  obtain ⟨u', hu, hi'⟩ := hi.of_sheds ht
  obtain ⟨rest', -, hj'⟩ := hj.of_sheds hu
  rw [read_of_opens hbody, ofWord, if_neg (by decide), if_pos rfl, window?_of_leads hi' hj']

end Command

/-! ## Rankings -/

namespace Console

open Tally (Precedes)

/-- A ranking is printed for the integer on the line, or for the default. -/
theorem says_top {s : Statistics} {config : Config} {l : Line} {a : Attribute}
    {limit : Option Int} {n : Int} (hread : Command.read l.body = .top (some a) limit)
    (hn : limit.getD config.topDefault = n) :
    Says ⟨s, config, .ready⟩ l
      ⟨Ranking.text ((Ranking.sort (s.counter.counts a).merged.toList).take
        (min (max n 0).toNat (s.counter.counts a).merged.size)), (s.counter.counts a).notices⟩ := by
  rw [← Ranking.take_sort_of_perm_toList (.refl _), ← Ranking.top_eq_take_sort, ← hn]
  exact says_of_read rfl hread rfl rfl

/-- A ranking is asked for with the word of an attribute and an integer behind it.  If the integer
fits, so many tallies of highest rank are printed, as far as there are so many and none below zero.
An integer that does not fit is passed over: the default length then stands in for it, as it does
where there is no integer.  Of two integers that fit, the lesser has the front of what the other
has. -/
theorem top_honours_what_fits (s : Statistics) (config : Config) (a : Attribute) :
    let c : Console := ⟨s, config, .ready⟩
    let m := (s.counter.counts a).merged
    ∃ ranked : List Tally,
      (∀ ts : List Tally, ts.Perm m.toList ∧ ts.Pairwise Precedes ↔ ts = ranked) ∧
      let front (n : Int) : List Tally := ranked.take (min (max n 0).toNat m.size)
      let printed (n : Int) : Reply := ⟨Ranking.text (front n), (s.counter.counts a).notices⟩
      (∀ (l : Line) (t rest : Text), l.content.Opens (utf8 "TOP") t → t.Opens a.word rest →
        (∀ i behind, Leads rest i behind → Fits i → c.Says l (printed i)) ∧
        (∀ i behind, Leads rest i behind → ¬ Fits i → c.Says l (printed config.topDefault)) ∧
        ((∀ i behind, ¬ Leads rest i behind) → c.Says l (printed config.topDefault))) ∧
      ∀ i j : Int, i ≤ j → front i <+: front j := by
  intro c m
  refine ⟨Ranking.sort m.toList, fun ts => Ranking.ranks_iff m, ?_⟩
  intro front printed
  refine ⟨fun l t rest hl ht => ⟨fun i behind hi hfits => ?_, fun i behind hi hfits => ?_,
    fun hnone => ?_⟩, fun i j hij => ?_⟩
  · have hread := Command.read_top_of_leads hl ht hi
    rw [if_pos hfits] at hread
    exact says_top hread rfl
  · have hread := Command.read_top_of_leads hl ht hi
    rw [if_neg hfits] at hread
    exact says_top hread rfl
  · exact says_top (Command.read_top_of_not_leads hl ht hnone) rfl
  · exact List.take_prefix_take_left (by omega)

/-- Two hosts that were seen once, asked for with an integer that fits, with one that does not, and
with a word. -/
theorem top_honours_what_fits_of_two :
    let entry (host : Text) : Entry :=
      .object [(utf8 "question", .object [(utf8 "host", .text host)])]
    let counter := ((Counter.create Counts.defaultHash 4).add (entry (utf8 "b"))).add
      (entry (utf8 "a"))
    let c : Console := ⟨⟨counter, .create 2⟩, { topDefault := 1 }, .ready⟩
    c.Says ⟨utf8 "\tTOP hosts +02 keys\r", true⟩ (.say (utf8 "\x7b\"a\":1, \"b\":1\x7d\n")) ∧
    c.Says ⟨utf8 "TOP hosts 2147483648", true⟩ (.say (utf8 "\x7b\"a\":1\x7d\n")) ∧
    c.Says ⟨utf8 "TOP hosts all", false⟩ (.say (utf8 "\x7b\"a\":1\x7d\n")) := by
  intro entry counter c
  obtain ⟨ranked, hranked, hlines, -⟩ := top_honours_what_fits c.statistics c.config .hosts
  have hr : [(utf8 "a", 1), (utf8 "b", 1)] = ranked := (hranked _).1 (by decide +kernel)
  subst hr
  obtain ⟨hfits, -, -⟩ := hlines ⟨utf8 "\tTOP hosts +02 keys\r", true⟩ (utf8 " hosts +02 keys\r")
    (utf8 " +02 keys\r") (.of_word_eq (by decide) (by decide)) (.of_word_eq (by decide) (by decide))
  obtain ⟨-, hlong, -⟩ := hlines ⟨utf8 "TOP hosts 2147483648", true⟩ (utf8 " hosts 2147483648")
    (utf8 " 2147483648") (.of_word_eq (by decide) (by decide)) (.of_word_eq (by decide) (by decide))
  obtain ⟨-, -, hnone⟩ := hlines ⟨utf8 "TOP hosts all", false⟩ (utf8 " hosts all")
    (utf8 " all") (.of_word_eq (by decide) (by decide)) (.of_word_eq (by decide) (by decide))
  refine ⟨Eq.mp (congrArg (c.Says _) ?_) (hfits 2 (utf8 " keys\r") ?_ (by decide)),
    Eq.mp (congrArg (c.Says _) ?_) (hlong 2147483648 [] ?_ (by decide)),
    Eq.mp (congrArg (c.Says _) ?_) (hnone fun i behind hi => ?_)⟩
  · decide +kernel
  · exact Numeral.leads_iff.2 ⟨⟨false, 2⟩, by decide, rfl⟩
  · decide +kernel
  · exact Numeral.leads_iff.2 ⟨⟨false, 2147483648⟩, by decide, rfl⟩
  · decide +kernel
  · have hall : Numeral.scan (utf8 " all") = none := by decide
    obtain ⟨n, hscan, -⟩ := Numeral.leads_iff.1 hi
    rw [hall] at hscan
    cases hscan

/-- A numeral one above the last that fits asks for all of a ranking of two, and one of them is
printed. -/
theorem long_numeral_is_passed_over :
    let entry (host : Text) : Entry :=
      .object [(utf8 "question", .object [(utf8 "host", .text host)])]
    let counter := ((Counter.create Counts.defaultHash 1).add (entry (utf8 "a.example"))).add
      (entry (utf8 "b.example"))
    let c : Console := ⟨⟨counter, .create 2⟩, { topDefault := 1 }, .ready⟩
    let m := (counter.counts .hosts).merged
    let ranked : List Tally := [(utf8 "a.example", 1), (utf8 "b.example", 1)]
    let printed (n : Int) : Reply := .say (Ranking.text (ranked.take (min (max n 0).toNat m.size)))
    Denotes (utf8 "2147483648") 2147483648 ∧ ranked.Perm m.toList ∧ ranked.Pairwise Precedes ∧
    (c.feed ⟨utf8 "TOP hosts 2147483648", true⟩).2 = printed 1 ++ .say prompt ∧
    (c.feed ⟨utf8 "TOP hosts 2147483648", true⟩).2 ≠ printed 2147483648 ++ .say prompt := by
  intro entry counter c m ranked printed
  refine ⟨.plain ⟨by decide +kernel, by decide⟩, ?_, ?_, ?_, ?_⟩ <;> decide +kernel

/-! ## Reports -/

/-- A report is asked for with two integers.  If both fit, the report on the window between them is
printed: six arrays, each with an element for every two neighbours of the window in the history of
the store, from which finite figures can be read again.  If one of the integers does not fit, how to
ask is printed instead. -/
theorem history_prints_report (counter : Counter) (requested : Nat) (es : List (Store.Event Float))
    (config : Config) {l : Line} {t u rest : Text} {i j : Int}
    (hl : l.content.Opens (utf8 "HISTORY") t) (hi : Leads t i u) (hj : Leads u j rest) :
    let store := (Store.create requested).run es
    let c : Console := ⟨⟨counter, store⟩, config, .ready⟩
    let report := store.view.report ⟨i, j⟩
    let printed := Report.ofSeries report
    let size := (clamp 0 store.history j - clamp 0 store.history i - 1).toNat
    (Fits i ∧ Fits j → c.Says l ⟨printed, []⟩) ∧
    (¬ (Fits i ∧ Fits j) → c.Says l ⟨utf8 "Usage: HISTORY <start> <end>\n", []⟩) ∧
    Report.IsReport size printed ∧
    ((∀ figure ∈ report.named, ∀ x ∈ figure.2, x.isFinite) →
      Report.ReadsBack Report.ShowsSeries report printed) := by
  intro store c report printed size
  have hread := Command.read_history hl hi hj
  refine ⟨fun hfits => ?_, fun hfits => ?_, ?_, fun hfinite => ?_⟩
  · rw [if_pos hfits] at hread
    exact says_of_read (c := c) rfl hread rfl rfl
  · rw [if_neg hfits] at hread
    exact says_of_read (c := c) rfl hread rfl rfl
  · exact Report.isReport_ofSeries fun figure hfigure =>
      (Store.recalls_run requested es).length_report ⟨i, j⟩ hfigure
  · obtain ⟨ms, hms, htells⟩ := Report.exists_tells_ofSeries hfinite
    exact htells.readsBack hms

/-- A window around all of a history of three, and one that does not fit. -/
theorem history_prints_report_of_three :
    let es : List (Store.Event Float) :=
      [.record ⟨.lists, none⟩, .rotate, .record ⟨.unfiltered, some 2⟩]
    let counter := Counter.create Counts.defaultHash 1
    let store := (Store.create 3).run es
    let c : Console := ⟨⟨counter, store⟩, {}, .ready⟩
    let printed := utf8 "\x7b\n  \"dns_queries\": [1, 1],\n  \"blocked_filtering\": [0, 1],\n" ++
      utf8 "  \"replaced_safebrowsing\": [0, 0],\n  \"replaced_safesearch\": [0, 0],\n" ++
      utf8 "  \"replaced_parental\": [0, 0],\n  \"avg_processing_time\": [2000, 0]\n\x7d\n"
    c.Says ⟨utf8 " HISTORY\t-1 +009 \r", true⟩ ⟨printed, []⟩ ∧ Report.IsReport 2 printed ∧
    c.Says ⟨utf8 "HISTORY 0 2147483648", false⟩
      ⟨utf8 "Usage: HISTORY <start> <end>\n", []⟩ := by
  intro es counter store c printed
  have hfirst : Leads (utf8 "\t-1 +009 \r") (-1) (utf8 " +009 \r") :=
    Numeral.leads_iff.2 ⟨⟨true, 1⟩, by decide, rfl⟩
  have hlast : Leads (utf8 " +009 \r") 9 (utf8 " \r") :=
    Numeral.leads_iff.2 ⟨⟨false, 9⟩, by decide, rfl⟩
  have hzero : Leads (utf8 " 0 2147483648") 0 (utf8 " 2147483648") :=
    Numeral.leads_iff.2 ⟨⟨false, 0⟩, by decide, rfl⟩
  have hlong : Leads (utf8 " 2147483648") 2147483648 [] :=
    Numeral.leads_iff.2 ⟨⟨false, 2147483648⟩, by decide, rfl⟩
  obtain ⟨hboth, -, hreport, -⟩ := history_prints_report counter 3 es {}
    (l := ⟨utf8 " HISTORY\t-1 +009 \r", true⟩) (.of_word_eq (by decide) (by decide)) hfirst hlast
  obtain ⟨-, hother, -⟩ := history_prints_report counter 3 es {}
    (l := ⟨utf8 "HISTORY 0 2147483648", false⟩) (.of_word_eq (by decide) (by decide)) hzero hlong
  have hprinted : Report.ofSeries (store.view.report ⟨-1, 9⟩) = printed := by decide +kernel
  exact ⟨hprinted ▸ hboth (by decide), hprinted ▸ hreport, hother (by decide)⟩

end Console

end QueryStats
