import Mathlib.Data.List.Basic
import QueryStats.Journal

/-!
# What the log leaves in files

Every text that is logged goes to the standard error stream, and a copy of it to the end of the file
whose path was the last to be redirected to.  So each file has what it had at first and behind that
its own texts, in their order, however often the log was turned to other files in between.
-/

namespace QueryStats

/-! ## Files that are added to -/

namespace Directory

variable {d : Directory} {t : Text}

/-- Where a path leads to does not hang on what files hold. -/
theorem follow?_files (d : Directory) (files : Std.ExtTreeMap Text Text) (l : Location)
    (steps : List Text) : ({ d with files := files } : Directory).follow? l steps =
      d.follow? l steps := by
  induction steps generalizing l with
  | nil => rfl
  | cons name steps ih => rw [follow?, follow?, ih]; rfl

/-- The same path leads to the same place, whatever is in the files. -/
theorem place_files (d : Directory) (files : Std.ExtTreeMap Text Text) (path : Text) :
    ({ d with files := files } : Directory).place path = d.place path := by
  simp only [place, follow?_files]
  rfl

/-- Adding to a file moves no other place. -/
@[simp] theorem place_append (d : Directory) (path t q : Text) :
    (d.append path t).place q = d.place q := by
  rw [append]
  split
  · exact place_files d _ q
  · rfl

/-- Bytes come to the end of the file that the path leads to, and to no other file. -/
theorem getElem?_append (d : Directory) (path t q : Text) : (d.append path t).files[q]? =
    if d.place path = .file q then some (d.files[q]?.getD [] ++ t) else d.files[q]? := by
  rw [append]
  split
  case h_1 name hname =>
    simp only [hname, Place.file.injEq, Std.ExtTreeMap.getElem?_alter, Std.compare_eq_iff_eq]
    split_ifs with h
    · rw [h]
    · rfl
  case h_2 hnone => rw [if_neg (hnone q)]

@[simp] theorem place_nil (d : Directory) : d.place [] = .nowhere := rfl

/-- A plain name, of a file that is there or can be made. -/
structure IsFileName (d : Directory) (t : Text) : Prop where
  ne_nil : t ≠ []
  length_le : t.length ≤ Path.maxName
  zero_notMem : 0 ∉ t
  slash_notMem : Byte.slash ∉ t
  ne_dot : t ≠ Path.dot
  ne_up : t ≠ Path.up
  notMem_folders : t ∉ d.folders

/-- A plain name is a path of one step. -/
theorem IsFileName.read? (h : d.IsFileName t) : Path.read? t = some ⟨false, [t], false⟩ := by
  have hlength : ¬Path.maxLength < t.length :=
    Nat.not_lt.2 (Nat.le_trans h.length_le (by decide))
  have hhead : t.head? ≠ some Byte.slash := fun hb => h.slash_notMem (List.mem_of_head? hb)
  simp [Path.read?, Text.untilZero_eq_self h.zero_notMem, hlength, hhead, h.ne_nil, h.ne_dot,
    h.ne_up, List.splitOn_eq_singleton h.slash_notMem]

/-- There is no folder of that name. -/
theorem IsFileName.isFolder (h : d.IsFileName t) : d.isFolder ⟨some 0, [t]⟩ = false := by
  simp [Directory.isFolder, Location.text, h.notMem_folders]

/-- A plain name leads to the file of that name. -/
theorem IsFileName.place (h : d.IsFileName t) : d.place t = .file t := by
  have hfollow : d.follow? .here [t] = some ⟨some 0, [t]⟩ := by
    simp [follow?, Directory.isFolder, Location.here, Location.step, h.ne_up]
  have hlength : ¬Path.maxName < t.length := Nat.not_lt.2 h.length_le
  have hsink : t ≠ nullDevice := by
    rintro rfl
    exact h.slash_notMem (by decide)
  simp [Directory.place, h.read?, Path.start, hfollow, h.isFolder, hlength, Location.text, hsink]

/-- Of plain names and the empty one, only the name of a file leads to it. -/
theorem place_eq_file_iff {path name : Text} (h : path = [] ∨ d.IsFileName path)
    (hname : name ≠ []) : d.place path = .file name ↔ path = name := by
  obtain rfl | h := h
  · exact iff_of_false nofun hname.symm
  · rw [h.place, Place.file.injEq]

end Directory

namespace Journal

/-! ## Texts and their paths -/

/-- The text that an event logs. -/
def Event.text? : Event → Option Text
  | .redirect _ => none
  | .log t => some t

/-- The texts that are logged, each with the path that the log has at that time. -/
def copies (path : Text) : List Event → List (Text × Text)
  | [] => []
  | .redirect path :: es => copies path es
  | .log t :: es => (path, t) :: copies path es

/-- Texts as they are written, each on a line of its own. -/
def written (ts : List Text) : Text := ts.flatMap (· ++ [Byte.newline])

/-- What a file holds after texts were added to it.  It is made for the first of them. -/
def grown (content : Option Text) (ts : List Text) : Option Text :=
  if ts = [] then content else some (content.getD [] ++ written ts)

section

variable {path : Text} {es : List Event} {j : Journal}

/-- No text is left out, and none is taken twice. -/
theorem map_copies (path : Text) (es : List Event) :
    (copies path es).map (·.2) = es.filterMap Event.text? := by
  induction es generalizing path with
  | nil => rfl
  | cons e es ih =>
    cases e with
    | redirect p => exact ih p
    | log t => exact congrArg (t :: ·) (ih path)

/-- A text is copied under the first path or under one that the log was turned to. -/
theorem path_of_mem_copies {c : Text × Text} (h : c ∈ copies path es) :
    c.1 = path ∨ .redirect c.1 ∈ es := by
  induction es generalizing path with
  | nil => cases h
  | cons e es ih =>
    cases e with
    | redirect p =>
      obtain rfl | hmem := ih h
      · exact .inr List.mem_cons_self
      · exact .inr (List.mem_cons_of_mem _ hmem)
    | log t =>
      obtain rfl | hmem := List.mem_cons.1 h
      · exact .inl rfl
      · exact (ih hmem).imp_right (List.mem_cons_of_mem _)

/-- Texts can be added one after the other. -/
theorem grown_cons (content : Option Text) (t : Text) (ts : List Text) :
    grown content (t :: ts) = grown (some (content.getD [] ++ (t ++ [Byte.newline]))) ts := by
  cases ts <;> simp [grown, written]

/-- Nothing that a file held is lost, and the new texts come behind it. -/
theorem getD_grown (content : Option Text) (ts : List Text) :
    (grown content ts).getD [] = content.getD [] ++ written ts := by
  rw [grown]
  split_ifs with h
  · simp [h, written]
  · rfl

/-- A file is there if it was before or if something was added. -/
theorem isSome_grown (content : Option Text) (ts : List Text) :
    (grown content ts).isSome ↔ content.isSome ∨ ts ≠ [] := by
  rw [grown]
  split_ifs with h <;> simp [h]

/-! ## Runs -/

/-- Logging moves no place. -/
theorem place_log (t q : Text) (j : Journal) :
    (j.log t).directory.place q = j.directory.place q := by
  rw [log]
  split_ifs
  · rfl
  · exact Directory.place_append ..

/-- Nothing is written to files while the log has no path. -/
theorem directory_log_of_no_path (t : Text) (h : j.path = []) :
    (j.log t).directory = j.directory := by
  simp [log, h]

/-- A logged text comes to the end of the file that the path of the log leads to. -/
theorem getElem?_files_log (t q : Text) (j : Journal) : (j.log t).directory.files[q]? =
    if j.directory.place j.path = .file q then
      some (j.directory.files[q]?.getD [] ++ (t ++ [Byte.newline]))
    else j.directory.files[q]? := by
  by_cases h : j.path = []
  · rw [directory_log_of_no_path t h, h, Directory.place_nil, if_neg nofun]
  · rw [← Directory.getElem?_append]
    simp [log, h]

/-- The standard error stream gets every text, wherever else it goes. -/
theorem stderr_run (j : Journal) (es : List Event) :
    (j.run es).stderr = j.stderr ++ written (es.filterMap Event.text?) := by
  induction es generalizing j with
  | nil => exact (List.append_nil _).symm
  | cons e es ih =>
    cases e with
    | redirect p => exact ih (j.redirect p)
    | log t =>
      rw [run_cons, apply, ih, log, List.append_assoc]
      rfl

/-- A file grows by the texts that were logged while the path of the log led to it. -/
theorem getElem?_files_run (j : Journal) (es : List Event) (q : Text) :
    (j.run es).directory.files[q]? = grown j.directory.files[q]?
      (((copies j.path es).filter fun c => j.directory.place c.1 = .file q).map (·.2)) := by
  induction es generalizing j with
  | nil => rfl
  | cons e es ih =>
    cases e with
    | redirect p => exact ih (j.redirect p)
    | log t =>
      rw [run_cons, apply, ih, path_log, copies, getElem?_files_log]
      simp only [place_log, List.filter_cons, decide_eq_true_eq]
      split_ifs
      · rw [List.map_cons, grown_cons]
      · rfl

end

/-! ## Plain names -/

/-- The log is turned to files by plain names, and turned off by an empty one.  Every text goes to
the standard error stream, and into the file whose name the log has at that time; the texts of a
file come behind what it had.  A file that was missing is made for its first text, and nothing is
written to any file while the log is turned off. -/
theorem log_is_split_over_files {j : Journal} {es : List Event}
    (hpath : j.path = [] ∨ j.directory.IsFileName j.path)
    (hes : ∀ p, .redirect p ∈ es → p = [] ∨ j.directory.IsFileName p) :
    let texts (name : Text) : List Text := ((copies j.path es).filter (·.1 = name)).map (·.2)
    let after := j.run es
    (copies j.path es).map (·.2) = es.filterMap Event.text? ∧
    after.stderr = j.stderr ++ written (es.filterMap Event.text?) ∧
    (∀ name, name ≠ [] →
      after.directory.files[name]?.getD [] =
        j.directory.files[name]?.getD [] ++ written (texts name) ∧
      (after.directory.files[name]?.isSome ↔
        j.directory.files[name]?.isSome ∨ texts name ≠ [])) ∧
    ∀ fs t gs, es = fs ++ .log t :: gs → (j.run fs).path = [] →
      (j.run (fs ++ [.log t])).directory = (j.run fs).directory := by
  intro texts after
  refine ⟨map_copies _ _, stderr_run j es, fun name hname => ?_, fun fs t gs _ hoff => ?_⟩
  · have hpaths : ∀ c ∈ copies j.path es, c.1 = [] ∨ j.directory.IsFileName c.1 := by
      intro c hc
      obtain hcopy | hcopy := path_of_mem_copies hc
      · rwa [hcopy]
      · exact hes _ hcopy
    have hplace : ∀ c ∈ copies j.path es,
        decide (j.directory.place c.1 = .file name) = decide (c.1 = name) :=
      fun c hc => decide_eq_decide.2 (Directory.place_eq_file_iff (hpaths c hc) hname)
    have hrun := getElem?_files_run j es name
    rw [List.filter_congr hplace] at hrun
    change _ = grown _ (texts name) at hrun
    rw [hrun]
    exact ⟨getD_grown _ _, isSome_grown _ _⟩
  · rw [run, List.foldl_append]
    exact directory_log_of_no_path t hoff

/-- The log is turned from one file to another, off, and back to the first. -/
theorem log_is_split_over_files_of_two :
    let directory := Directory.empty.write (utf8 "old") (utf8 "zero\n")
    let es : List Event := [.log (utf8 "one"), .redirect (utf8 "old"), .log (utf8 "two"),
      .redirect [], .log (utf8 "three"), .redirect (utf8 "new"), .log (utf8 "four")]
    let after := (create (utf8 "new") directory).run es
    after.stderr = utf8 "one\ntwo\nthree\nfour\n" ∧
    after.directory.files[utf8 "new"]?.getD [] = utf8 "one\nfour\n" ∧
    after.directory.files[utf8 "old"]?.getD [] = utf8 "zero\ntwo\n" ∧
    after.directory.files[utf8 "three"]?.isSome = false := by
  intro directory es after
  have hname : ∀ p ∈ [utf8 "old", utf8 "new"], directory.IsFileName p := by
    refine List.forall_mem_cons.2 ⟨?_, List.forall_mem_singleton.2 ?_⟩ <;>
      constructor <;> decide +kernel
  have hes : ∀ p, .redirect p ∈ es → p = [] ∨ directory.IsFileName p := by
    intro p hp
    have hmem : p ∈ [utf8 "old", [], utf8 "new"] := by simpa [es] using hp
    simp only [List.mem_cons, List.not_mem_nil, or_false] at hmem
    obtain rfl | rfl | rfl := hmem
    · exact .inr (hname _ List.mem_cons_self)
    · exact .inl rfl
    · exact .inr (hname _ (List.mem_cons_of_mem _ List.mem_cons_self))
  obtain ⟨-, hstderr, hfiles, -⟩ :=
    log_is_split_over_files (j := create (utf8 "new") directory)
      (.inr (hname _ (List.mem_cons_of_mem _ List.mem_cons_self))) hes
  refine ⟨hstderr.trans (by decide), (hfiles (utf8 "new") (by decide)).1.trans (by decide +kernel),
    (hfiles (utf8 "old") (by decide)).1.trans (by decide +kernel), ?_⟩
  have hnone := (hfiles (utf8 "three") (by decide)).2
  rw [Bool.eq_false_iff, Ne, hnone]
  decide +kernel

end Journal

end QueryStats
